import Dtact.Lib.Bell
import Dtact.Lib.Transition
import Dtact.Util.WaitQueue

/-!
# `OnceCell`

The byte `state` goes from `UNINIT` over `INITIALIZING` to `INIT`. Who makes the first move, `set`
or a future of `get_or_init`, writes `data`, publishes it and wakes all waiters. Every operation on
the byte, on `data` and on the wait queue is one step; an initialiser takes any number of polls.
-/

namespace Dtact.OnceCell

open Transition

inductive State
  | uninit
  | initializing
  | init
deriving DecidableEq

variable {ι T : Type}

/-- Who has won the cell: `set` with its argument, or `get_or_init`. -/
inductive Caller (T : Type)
  | set (value : T)
  | getOrInit

/-- Where a call is, named after the operation it performs next: in `get`, in `set`, in the loop
of `get_or_init` or in `poll_wait_for_init`. The last three are shared by the callers that have won
the cell. -/
inductive Pc (T : Type)
  | getLoad
  | getRead
  | setCas (value : T)
  | loopLoad
  | loopRead
  | loopCas
  | initPoll
  | waitLoad
  | register
  | waitReload (token : Nat)
  | cancel (token : Nat)
  | write (caller : Caller T) (value : T)
  | publish (caller : Caller T)
  | wakeAll (caller : Caller T)

/-- What a task is at. A future of `get_or_init` is pending because it waits for another
one, or because its own initialiser is. -/
inductive Activity (T : Type)
  | idle
  | call (pc : Pc T)
  | pendingWait
  | pendingInit

structure Task (T : Type) where
  activity : Activity T
  /-- The waker has been invoked since the latest poll began. -/
  woken : Bool

structure St (ι T : Type) where
  state : State
  data : Option T
  wait : WaitQueue ι
  task : ι → Task T

def St.new : St ι T := ⟨.uninit, none, .new, fun _ => ⟨.idle, false⟩⟩

def St.newWith (value : T) : St ι T := ⟨.init, some value, .new, fun _ => ⟨.idle, false⟩⟩

section

variable [DecidableEq ι]

def St.set (s : St ι T) (j : ι) (activity : Activity T) : St ι T :=
  { s with task := Function.update s.task j { s.task j with activity } }

def St.goto (s : St ι T) (j : ι) (pc : Pc T) : St ι T := s.set j (.call pc)

/-- One step of a call. `outcome` is what a poll of the initialiser returns. -/
def run (j : ι) (outcome : Option T) (s : St ι T) : Pc T → St ι T
  | .getLoad => if s.state = .init then s.goto j .getRead else s.set j .idle
  | .getRead => s.set j .idle
  | .setCas value =>
    if s.state = .uninit then { s.goto j (.write (.set value) value) with state := .initializing }
    else s.set j .idle
  | .loopLoad => if s.state = .init then s.goto j .loopRead else s.goto j .loopCas
  | .loopRead =>
    match s.data with
    | some _ => s.set j .idle
    | none => s.goto j .loopCas
  | .loopCas =>
    if s.state = .uninit then { s.goto j .initPoll with state := .initializing }
    else s.goto j .waitLoad
  | .initPoll =>
    match outcome with
    | some value => s.goto j (.write .getOrInit value)
    | none => s.set j .pendingInit
  | .waitLoad => if s.state = .init then s.goto j .loopLoad else s.goto j .register
  | .register =>
    let (token, wait) := s.wait.register j
    { s.goto j (.waitReload token.number) with wait }
  | .waitReload token =>
    if s.state = .init then s.goto j (.cancel token) else s.set j .pendingWait
  | .cancel token => { s.goto j .loopLoad with wait := s.wait.cancel ⟨token, j⟩ }
  | .write caller value => { s.goto j (.publish caller) with data := some value }
  | .publish caller => { s.goto j (.wakeAll caller) with state := .init }
  | .wakeAll _ =>
    let (wakers, wait) := s.wait.wakeAll
    let s := s.set j .idle
    { s with
      wait
      task := WaitQueue.invoke wakers (fun t => { t with woken := true }) s.task }

/-- A future that waits for another one may be dropped; one whose initialiser has begun is
polled to its end. -/
inductive Act (ι T : Type)
  | get (j : ι)
  | set (j : ι) (value : T)
  | getOrInit (j : ι)
  | poll (j : ι)
  | dropFuture (j : ι)
  | run (j : ι) (outcome : Option T)

/-- A task that is at nothing begins a call, or the first poll of a new future. -/
def St.begin (s : St ι T) (j : ι) (pc : Pc T) : Option (St ι T) :=
  match (s.task j).activity with
  | .idle => some { s with task := Function.update s.task j ⟨.call pc, false⟩ }
  | _ => none

def step : Act ι T → St ι T → Option (St ι T)
  | .get j, s => s.begin j .getLoad
  | .set j value, s => s.begin j (.setCas value)
  | .getOrInit j, s => s.begin j .loopLoad
  | .poll j, s =>
    match (s.task j).activity with
    | .pendingWait => some { s with task := Function.update s.task j ⟨.call .waitLoad, false⟩ }
    | .pendingInit => some { s with task := Function.update s.task j ⟨.call .initPoll, false⟩ }
    | _ => none
  | .dropFuture j, s =>
    match (s.task j).activity with
    | .pendingWait => some (s.set j .idle)
    | _ => none
  | .run j outcome, s =>
    match (s.task j).activity with
    | .call pc => some (OnceCell.run j outcome s pc)
    | _ => none

/-! ## What has been returned -/

structure Hist (T : Type) where
  stored : List T
  /-- The values that `get` and `get_or_init` have returned. -/
  returned : List T
  /-- The arguments and results of `set`. -/
  sets : List (T × Except T Unit)
  inits : Nat

def Hist.empty : Hist T := ⟨[], [], [], 0⟩

def Hist.return (h : Hist T) (data : Option T) : Hist T :=
  { h with returned := data.toList ++ h.returned }

/-- What a step of a call adds. `get_or_init` returns a reference to `data`. -/
def record (s : St ι T) (h : Hist T) : Pc T → Hist T
  | .getRead | .loopRead | .wakeAll .getOrInit => h.return s.data
  | .setCas value =>
    if s.state = .uninit then h else { h with sets := (value, .error value) :: h.sets }
  | .loopCas => if s.state = .uninit then { h with inits := h.inits + 1 } else h
  | .write _ value => { h with stored := value :: h.stored }
  | .wakeAll (.set value) => { h with sets := (value, .ok ()) :: h.sets }
  | _ => h

def upd (a : Act ι T) (s : St ι T) (h : Hist T) : Hist T :=
  match a with
  | .run j _ =>
    match (s.task j).activity with
    | .call pc => record s h pc
    | _ => h
  | _ => h

/-- A cell is made by `new` or by `new_with`. -/
def Created (p : St ι T × Hist T) : Prop :=
  p = (St.new, Hist.empty) ∨
    ∃ value, p = (St.newWith value, { Hist.empty with stored := [value] })

abbrev OnceRun : List (Act ι T) → St ι T × Hist T → Prop :=
  Run Created (withHist step upd) Free

end

/-! ## One value -/

def Hist.oks (h : Hist T) : List (T × Except T Unit) := h.sets.filter fun r => r.2.isOk

/-- The caller has won with this value. -/
def Caller.wrote (value : T) : Caller T → Prop
  | .set argument => argument = value
  | .getOrInit => True

def Activity.wins : Activity T → Bool
  | .call .initPoll | .call (.write _ _) | .call (.publish _) | .call (.wakeAll _) => true
  | .pendingInit => true
  | _ => false

/-- What a task knows of the cell. -/
def Activity.Ok (state : State) (data : Option T) (stored : List T) : Activity T → Prop
  | .call .getRead | .call .loopRead => state = .init
  | .call .initPoll | .pendingInit => state = .initializing ∧ stored = []
  | .call (.write caller value) => (state = .initializing ∧ stored = []) ∧ caller.wrote value
  | .call (.publish caller) =>
    state = .initializing ∧ ∃ value, data = some value ∧ stored = [value] ∧ caller.wrote value
  | .call (.wakeAll caller) => state = .init ∧ ∃ value, stored = [value] ∧ caller.wrote value
  | _ => True

structure Inv (state : State) (data : Option T) (act : ι → Activity T) (h : Hist T) : Prop where
  fresh : state = .uninit → h.stored = [] ∧ h.inits = 0 ∧ h.oks = []
  free : state = .uninit → ∀ j, (act j).wins = false
  unique : ∀ i j, (act i).wins → (act j).wins → i = j
  pending : ∀ j, (act j).wins → h.oks = []
  full : state = .init → ∃ value, data = some value ∧ h.stored = [value]
  ok : ∀ j, (act j).Ok state data h.stored
  stored : h.stored.length ≤ 1
  agree : ∀ value ∈ h.returned, h.stored = [value]
  sets : ∀ r ∈ h.sets, r.2 = .ok () ∧ h.stored = [r.1] ∨ r.2 = .error r.1
  oks : h.oks.length ≤ 1
  inits : h.inits ≤ 1

/-- Who has not won knows nothing of a cell that is not initialised. -/
theorem Activity.Ok.of_not_wins {a : Activity T} {state state' : State} {data data' : Option T}
    {stored stored' : List T} (h : a.Ok state data stored) (hwins : a.wins = false)
    (hne : state ≠ .init) : a.Ok state' data' stored' := by
  cases a with
  | idle | pendingWait => trivial
  | pendingInit => cases hwins
  | call pc =>
    cases pc with
    | initPoll | write _ _ | publish _ | wakeAll _ => cases hwins
    | getRead | loopRead => exact absurd h hne
    | _ => trivial

section

variable {state : State} {data : Option T} {act : ι → Activity T} {h : Hist T} {j : ι}
  {a : Activity T}

theorem Inv.others (hinv : Inv state data act h) (hj : (act j).wins) (i : ι) (hne : i ≠ j) :
    (act i).wins = false :=
  Bool.eq_false_iff.mpr fun hi => hne (hinv.unique i j hi hj)

/-- A value that is read from an initialised cell is the one that was stored. -/
theorem Inv.return (hinv : Inv state data act h) (hstate : state = .init) :
    Inv state data act (h.return data) := by
  refine { hinv with agree := fun value hmem => ?_ }
  obtain ⟨value', hdata, hstored⟩ := hinv.full hstate
  simp only [Hist.return, hdata, Option.toList_some, List.singleton_append, List.mem_cons] at hmem
  rcases hmem with rfl | hmem
  · exact hstored
  · exact hinv.agree value hmem

theorem Inv.setErr (hinv : Inv state data act h) (value : T) :
    Inv state data act { h with sets := (value, .error value) :: h.sets } := by
  refine { hinv with sets := fun r hr => ?_ }
  rcases List.mem_cons.mp hr with rfl | hr
  · exact .inr rfl
  · exact hinv.sets r hr

variable [DecidableEq ι]

theorem wins_update (hwins : a.wins = false ∨ (act j).wins) {i : ι}
    (hi : (Function.update act j a i).wins) : (act i).wins := by
  rcases eq_or_ne i j with rfl | hne
  · rw [Function.update_self] at hi
    exact hwins.resolve_left (by simp [hi])
  · rwa [Function.update_of_ne hne] at hi

section

variable (hinv : Inv state data act h)

include hinv

/-- A task moves that has won before if it has won now. -/
theorem Inv.move (hwins : a.wins = false ∨ (act j).wins) (hok : a.Ok state data h.stored) :
    Inv state data (Function.update act j a) h := by
  refine { hinv with
    free := fun hstate i => Bool.eq_false_iff.mpr fun hi => ?_
    unique := fun i k hi hk => hinv.unique i k (wins_update hwins hi) (wins_update hwins hk)
    pending := fun i hi => hinv.pending i (wins_update hwins hi)
    ok := fun i => ?_ }
  · cases (hinv.free hstate i).symm.trans (wins_update hwins hi)
  · rcases eq_or_ne i j with rfl | hne
    · rwa [Function.update_self]
    · rw [Function.update_of_ne hne]
      exact hinv.ok i

/-- What the others know when the task that has won changes the cell. -/
theorem Inv.ok_update (hne : state ≠ .init) (hother : ∀ i ≠ j, (act i).wins = false)
    {state' : State} {data' : Option T} {stored' : List T} (hok : a.Ok state' data' stored')
    (i : ι) : (Function.update act j a i).Ok state' data' stored' := by
  rcases eq_or_ne i j with rfl | hij
  · rwa [Function.update_self]
  · rw [Function.update_of_ne hij]
    exact (hinv.ok i).of_not_wins (hother i hij) hne

/-- A successful compare-and-exchange from `UNINIT`. -/
theorem Inv.win (hstate : state = .uninit) {inits : Nat} (hinits : inits ≤ 1)
    (hok : a.Ok .initializing data []) :
    Inv .initializing data (Function.update act j a) { h with inits } := by
  have hfree := hinv.free hstate
  obtain ⟨hstored, -, hoks⟩ := hinv.fresh hstate
  have honly (i : ι) (hi : (Function.update act j a i).wins) : i = j := by
    by_contra hne
    rw [Function.update_of_ne hne] at hi
    cases (hfree i).symm.trans hi
  refine { hinv with
    fresh := by simp
    free := by simp
    unique := fun i k hi hk => (honly i hi).trans (honly k hk).symm
    pending := fun _ _ => hoks
    full := by simp
    ok := hinv.ok_update (by simp [hstate]) (fun i _ => hfree i) ?_
    inits := hinits }
  rwa [hstored]

theorem Inv.write {caller : Caller T} {value : T} (hj : act j = .call (.write caller value)) :
    Inv state (some value) (Function.update act j (.call (.publish caller)))
      { h with stored := value :: h.stored } := by
  have hok := hinv.ok j
  rw [hj] at hok
  obtain ⟨⟨hstate, hstored⟩, hwrote⟩ := hok
  have hwins : (act j).wins := by rw [hj]; rfl
  have hone : value :: h.stored = [value] := by rw [hstored]
  refine { hinv with
    fresh := by simp [hstate]
    free := by simp [hstate]
    unique := fun i k hi hk =>
      hinv.unique i k (wins_update (.inr hwins) hi) (wins_update (.inr hwins) hk)
    pending := fun _ _ => hinv.pending j hwins
    full := by simp [hstate]
    ok := hinv.ok_update (by simp [hstate]) (hinv.others hwins) ?_
    stored := by simp [hstored]
    agree := fun value' hmem => ?_
    sets := fun r hr => ?_ }
  · exact ⟨hstate, value, rfl, hone, hwrote⟩
  · -- nothing has been returned from an empty cell
    have hnone := hinv.agree value' hmem
    rw [hstored] at hnone
    cases hnone
  · rcases hinv.sets r hr with ⟨-, hnone⟩ | herr
    · rw [hstored] at hnone
      cases hnone
    · exact .inr herr

theorem Inv.publish {caller : Caller T} (hj : act j = .call (.publish caller)) :
    Inv .init data (Function.update act j (.call (.wakeAll caller))) h := by
  have hok := hinv.ok j
  rw [hj] at hok
  obtain ⟨hstate, value, hdata, hstored, hwrote⟩ := hok
  have hwins : (act j).wins := by rw [hj]; rfl
  exact { hinv with
    fresh := by simp
    free := by simp
    unique := fun i k hi hk =>
      hinv.unique i k (wins_update (.inr hwins) hi) (wins_update (.inr hwins) hk)
    pending := fun _ _ => hinv.pending j hwins
    full := fun _ => ⟨value, hdata, hstored⟩
    ok := hinv.ok_update (by simp [hstate]) (hinv.others hwins) ⟨rfl, value, hstored, hwrote⟩ }

theorem Inv.setOk {value : T} (hj : act j = .call (.wakeAll (.set value))) :
    Inv state data (Function.update act j .idle)
      { h with sets := (value, .ok ()) :: h.sets } := by
  have hok := hinv.ok j
  rw [hj] at hok
  obtain ⟨hstate, value', hstored, rfl⟩ := hok
  have hwins : (act j).wins := by rw [hj]; rfl
  have hoks : ({ h with sets := (value, .ok ()) :: h.sets } : Hist T).oks =
      (value, .ok ()) :: h.oks := rfl
  rw [hinv.pending j hwins] at hoks
  have hmove : Inv state data (Function.update act j .idle) h := hinv.move (.inl rfl) trivial
  refine { hmove with
    fresh := by simp [hstate]
    pending := fun i hi => ?_
    sets := fun r hr => ?_
    oks := by rw [hoks]; exact Nat.le_refl 1 }
  · -- the only task that had won is done
    rcases eq_or_ne i j with rfl | hne
    · rw [Function.update_self] at hi
      cases hi
    · rw [Function.update_of_ne hne] at hi
      cases (hinv.others hwins i hne).symm.trans hi
  · rcases List.mem_cons.mp hr with rfl | hr
    · exact .inl ⟨rfl, hstored⟩
    · exact hinv.sets r hr

end

end

section

variable [DecidableEq ι] {s s' : St ι T} {h : Hist T} {j : ι}

def St.acts (s : St ι T) (j : ι) : Activity T := (s.task j).activity

def St.Inv (s : St ι T) (h : Hist T) : Prop := OnceCell.Inv s.state s.data s.acts h

theorem acts_update (s : St ι T) (j : ι) (t : Task T) :
    St.acts { s with task := Function.update s.task j t } = Function.update s.acts j t.activity :=
  Function.comp_update Task.activity s.task j t

theorem acts_set (s : St ι T) (j : ι) (a : Activity T) :
    (s.set j a).acts = Function.update s.acts j a :=
  acts_update s j _

theorem Inv.goto (hinv : s.Inv h) {pc : Pc T}
    (hwins : (Activity.call pc).wins = false ∨ (s.acts j).wins)
    (hok : (Activity.call pc).Ok s.state s.data h.stored) : (s.goto j pc).Inv h := by
  unfold St.Inv
  rw [St.goto, acts_set]
  exact Inv.move hinv hwins hok

theorem Inv.set (hinv : s.Inv h) {a : Activity T} (hwins : a.wins = false ∨ (s.acts j).wins)
    (hok : a.Ok s.state s.data h.stored) : (s.set j a).Inv h := by
  unfold St.Inv
  rw [acts_set]
  exact Inv.move hinv hwins hok

/-- The waker flags are no part of the invariant. -/
theorem acts_wakeAll (s : St ι T) (j : ι) (outcome : Option T) (caller : Caller T) :
    (run j outcome s (.wakeAll caller)).acts = Function.update s.acts j .idle := by
  rw [← acts_set]
  funext i
  simp only [run, St.acts, WaitQueue.invoke]
  split <;> rfl

theorem Inv.run (hinv : s.Inv h) {outcome : Option T} {pc : Pc T} (hj : s.acts j = .call pc) :
    (run j outcome s pc).Inv (record s h pc) := by
  have hok := hinv.ok j
  rw [hj] at hok
  cases pc with
  | getLoad =>
    simp only [OnceCell.run, record]
    split
    · next hinit => exact Inv.goto hinv (.inl rfl) hinit
    · exact Inv.set hinv (.inl rfl) trivial
  | getRead => exact (Inv.set hinv (.inl rfl) trivial : (s.set j .idle).Inv h).return hok
  | setCas value =>
    simp only [OnceCell.run, record]
    split
    · next huninit =>
      unfold St.Inv St.goto
      have hacts := acts_set s j (.call (.write (.set value) value))
      exact hacts ▸ Inv.win hinv huninit hinv.inits ⟨⟨rfl, rfl⟩, rfl⟩
    · exact (Inv.set hinv (.inl rfl) trivial : (s.set j .idle).Inv h).setErr value
  | loopLoad =>
    simp only [OnceCell.run, record]
    split
    · next hinit => exact Inv.goto hinv (.inl rfl) hinit
    · exact Inv.goto hinv (.inl rfl) trivial
  | loopRead =>
    have hreturn : s.Inv (h.return s.data) := Inv.return hinv hok
    simp only [OnceCell.run, record]
    split
    · exact Inv.set hreturn (.inl rfl) trivial
    · exact Inv.goto hreturn (.inl rfl) trivial
  | loopCas =>
    simp only [OnceCell.run, record]
    split
    · next huninit =>
      have hacts := acts_set s j (.call .initPoll)
      have hinits : h.inits + 1 ≤ 1 := by rw [(hinv.fresh huninit).2.1]
      unfold St.Inv St.goto
      exact hacts ▸ Inv.win hinv huninit hinits ⟨rfl, rfl⟩
    · exact Inv.goto hinv (.inl rfl) trivial
  | initPoll =>
    have hwins : (s.acts j).wins := by rw [hj]; rfl
    simp only [OnceCell.run, record]
    split
    · exact Inv.goto hinv (.inr hwins) ⟨hok, trivial⟩
    · exact Inv.set hinv (.inr hwins) hok
  | waitLoad =>
    simp only [OnceCell.run, record]
    split <;> exact Inv.goto hinv (.inl rfl) trivial
  | register => exact Inv.goto hinv (.inl rfl) trivial
  | waitReload token =>
    simp only [OnceCell.run, record]
    split
    · exact Inv.goto hinv (.inl rfl) trivial
    · exact Inv.set hinv (.inl rfl) trivial
  | cancel token => exact Inv.goto hinv (.inl rfl) trivial
  | write caller value =>
    have hacts := acts_set s j (.call (.publish caller))
    unfold St.Inv
    exact hacts ▸ Inv.write hinv hj
  | publish caller =>
    have hacts := acts_set s j (.call (.wakeAll caller))
    unfold St.Inv
    exact hacts ▸ Inv.publish hinv hj
  | wakeAll caller =>
    unfold St.Inv
    rw [acts_wakeAll]
    cases caller with
    | set value => exact Inv.setOk hinv hj
    | getOrInit =>
      have hmove : OnceCell.Inv s.state s.data (Function.update s.acts j .idle) h :=
        Inv.move hinv (.inl rfl) trivial
      exact hmove.return hok.1

theorem Inv.update (hinv : s.Inv h) {t : Task T}
    (hwins : t.activity.wins = false ∨ (s.acts j).wins)
    (hok : t.activity.Ok s.state s.data h.stored) :
    St.Inv { s with task := Function.update s.task j t } h := by
  unfold St.Inv
  rw [acts_update]
  exact Inv.move hinv hwins hok

theorem Inv.begin (hinv : s.Inv h) {pc : Pc T} (hst : s.begin j pc = some s')
    (hwins : (Activity.call pc).wins = false)
    (hok : (Activity.call pc).Ok s.state s.data h.stored) : s'.Inv h := by
  unfold St.begin at hst
  split at hst
  · cases hst
    exact Inv.update hinv (.inl hwins) hok
  · cases hst

/-- One caller wins, and what the others read is what it wrote. -/
theorem Inv.step (hinv : s.Inv h) {a : Act ι T} (hst : step a s = some s') :
    s'.Inv (upd a s h) := by
  cases a with
  | get j | set j value | getOrInit j => exact Inv.begin hinv hst rfl trivial
  | poll j =>
    simp only [OnceCell.step] at hst
    split at hst
    · cases hst
      exact Inv.update hinv (.inl rfl) trivial
    · next hj =>
      cases hst
      have hacts : s.acts j = .pendingInit := hj
      have hok := hinv.ok j
      rw [hacts] at hok
      exact Inv.update hinv (.inr (by rw [hacts]; rfl)) hok
    · cases hst
  | dropFuture j =>
    simp only [OnceCell.step] at hst
    split at hst
    · cases hst
      exact Inv.set hinv (.inl rfl) trivial
    · cases hst
  | run j outcome =>
    simp only [OnceCell.step] at hst
    split at hst
    · next pc hj =>
      cases hst
      simp only [upd, hj]
      exact Inv.run hinv hj
    · cases hst

end

/-! ## The bell -/

def Pc.phase : Pc T → Bell.Phase
  | .loopLoad | .loopRead | .loopCas | .waitLoad | .register | .cancel _ => .asking
  | .waitReload _ => .registered
  | .wakeAll _ => .ringing
  | .getLoad | .getRead | .setCas _ | .initPoll | .write _ _ | .publish _ => .away

def Activity.phase : Activity T → Bell.Phase
  | .idle | .pendingInit => .away
  | .call pc => pc.phase
  | .pendingWait => .waiting

def Task.bell (t : Task T) : Bell.Task := ⟨t.activity.phase, t.woken⟩

/-- The door is open when the cell is initialised. -/
def bell (s : St ι T) : Bell.St ι := ⟨s.state = .init, s.wait.owners, fun j => (s.task j).bell⟩

section

variable [DecidableEq ι] {s s' : St ι T} {j : ι} {outcome : Option T}

theorem bell_update (s : St ι T) (j : ι) (t : Task T) :
    bell { s with task := Function.update s.task j t } = (bell s).set j t.bell := by
  simp only [bell, Bell.St.set]
  congr 1
  exact Function.comp_update Task.bell s.task j t

theorem bell_set (s : St ι T) (j : ι) (a : Activity T) :
    bell (s.set j a) = (bell s).setPhase j a.phase :=
  bell_update s j _

theorem set_bell (hring : (s.task j).activity.phase ≠ .ringing) {a : Activity T}
    (ha : a.phase = .away ∨ a.phase = .asking) : Bell.Step (bell s) (bell (s.set j a)) := by
  rw [bell_set]
  exact .turn j hring ha id

theorem wakeAll_bell {caller : Caller T} (hj : (s.task j).activity = .call (.wakeAll caller)) :
    Bell.Step (bell s) (bell (run j outcome s (.wakeAll caller))) := by
  have hidle : (bell s).setPhase j .away = bell (s.set j .idle) := (bell_set s j .idle).symm
  have hgate : bell (run j outcome s (.wakeAll caller)) =
      ((bell s).setPhase j .away).wakeOwners := by
    rw [hidle]
    simp only [run, bell, Bell.St.wakeOwners, WaitQueue.invoke, WaitQueue.mem_wakeAll]
    congr 1
    funext i
    exact apply_ite Task.bell _ _ _
  rw [hgate]
  exact .ring j (congrArg Activity.phase hj)

theorem run_bell {pc : Pc T} (hj : (s.task j).activity = .call pc) :
    Bell.Step (bell s) (bell (run j outcome s pc)) := by
  have hphase : (s.task j).activity.phase = pc.phase := congrArg Activity.phase hj
  have hturn {a : Activity T} (hpc : pc.phase ≠ .ringing)
      (ha : a.phase = .away ∨ a.phase = .asking) : Bell.Step (bell s) (bell (s.set j a)) :=
    set_bell (hphase.trans_ne hpc) ha
  -- the first to come turns `UNINIT` into `INITIALIZING`, and the door stays shut
  have hwin {a : Activity T} (hpc : pc.phase ≠ .ringing) (ha : a.phase = .away) :
      Bell.Step (bell s) (bell { s.set j a with state := .initializing }) := by
    have hgate : bell { s.set j a with state := .initializing } =
        { (bell s).setPhase j a.phase with isOpen := false } :=
      congrArg (fun b : Bell.St ι => { b with isOpen := false }) (bell_set s j a)
    rw [hgate]
    exact .turn j (hphase.trans_ne hpc) (.inl ha) (by simp)
  cases pc with
  | getLoad | initPoll =>
    simp only [run]
    split <;> exact hturn (by simp [Pc.phase]) (.inl rfl)
  | getRead => exact hturn (by simp [Pc.phase]) (.inl rfl)
  | setCas value =>
    simp only [run]
    split
    · exact hwin (by simp [Pc.phase]) rfl
    · exact hturn (by simp [Pc.phase]) (.inl rfl)
  | loopLoad | waitLoad =>
    simp only [run]
    split <;> exact hturn (by simp [Pc.phase]) (.inr rfl)
  | loopRead =>
    simp only [run]
    split
    · exact hturn (by simp [Pc.phase]) (.inl rfl)
    · exact hturn (by simp [Pc.phase]) (.inr rfl)
  | loopCas =>
    simp only [run]
    split
    · exact hwin (by simp [Pc.phase]) rfl
    · exact hturn (by simp [Pc.phase]) (.inr rfl)
  | register =>
    have hgate : bell (run j outcome s .register) =
        { (bell s).setPhase j .registered with owners := j ::ₘ (bell s).owners } :=
      congrArg₂ (fun (b : Bell.St ι) owners => { b with owners }) (bell_set s j _)
        (WaitQueue.owners_register s.wait j)
    rw [hgate]
    exact .register j hphase
  | waitReload token =>
    simp only [run]
    split
    · exact hturn (by simp [Pc.phase]) (.inr rfl)
    · next hne =>
      rw [bell_set]
      exact .sleep j hphase (decide_eq_false hne)
  | cancel token =>
    have hgate : bell (run j outcome s (.cancel token)) =
        { (bell s).setPhase j .asking with owners := (s.wait.cancel ⟨token, j⟩).owners } :=
      congrArg (fun b : Bell.St ι => { b with owners := (s.wait.cancel ⟨token, j⟩).owners })
        (bell_set s j _)
    have hring : ((bell s).task j).phase ≠ .ringing := by
      rw [show ((bell s).task j).phase = .asking from hphase]
      simp
    rw [hgate]
    exact .retract j hring (.inr rfl) fun i hne hi => WaitQueue.mem_owners_cancel hne hi
  | write caller value => exact hturn (by simp [Pc.phase]) (.inl rfl)
  | publish caller =>
    have hgate : bell (run j outcome s (.publish caller)) =
        { (bell s).setPhase j .ringing with isOpen := true } :=
      congrArg (fun b : Bell.St ι => { b with isOpen := true }) (bell_set s j _)
    rw [hgate]
    exact .unlock j hphase
  | wakeAll caller => exact wakeAll_bell hj

theorem begin_bell {pc : Pc T} (hst : s.begin j pc = some s')
    (hpc : pc.phase = .away ∨ pc.phase = .asking) : Bell.Step (bell s) (bell s') := by
  unfold St.begin at hst
  split at hst
  · next hj =>
    cases hst
    have haway : ((bell s).task j).phase = .away := congrArg Activity.phase hj
    rw [bell_update]
    exact .turn j (by simp [haway]) hpc id
  · cases hst

theorem step_bell {a : Act ι T} (hst : step a s = some s') : Bell.Step (bell s) (bell s') := by
  cases a with
  | get j | set j value => exact begin_bell hst (.inl rfl)
  | getOrInit j => exact begin_bell hst (.inr rfl)
  | poll j =>
    simp only [step] at hst
    split at hst
    · next hj =>
      cases hst
      have hwaiting : ((bell s).task j).phase = .waiting := congrArg Activity.phase hj
      rw [bell_update]
      exact .turn j (by simp [hwaiting]) (.inr rfl) id
    · next hj =>
      cases hst
      have haway : ((bell s).task j).phase = .away := congrArg Activity.phase hj
      rw [bell_update]
      exact .turn j (by simp [haway]) (.inl rfl) id
    · cases hst
  | dropFuture j =>
    simp only [step] at hst
    split at hst
    · next hj =>
      cases hst
      exact set_bell (by simp [hj, Activity.phase]) (.inl rfl)
    · cases hst
  | run j outcome =>
    simp only [step] at hst
    split at hst
    · next hj =>
      cases hst
      exact run_bell hj
    · cases hst

end

/-! ## The result -/

def Activity.isCall : Activity T → Bool
  | .call _ => true
  | _ => false

/-- The task has a live future of `get_or_init` whose latest poll returned `Pending`. -/
def Activity.isPending : Activity T → Bool
  | .pendingWait | .pendingInit => true
  | _ => false

/-- When the cell is initialised and no call is in progress, every pending future has been
woken since its latest poll began. -/
def AllWoken (s : St ι T) : Prop :=
  (∀ j, (s.task j).activity.isCall = false) → s.state = .init →
    ∀ j, (s.task j).activity.isPending → (s.task j).woken

structure OnceOk (s : St ι T) (h : Hist T) : Prop where
  /-- At most one value is stored. -/
  stored : h.stored.length ≤ 1
  /-- `get` and `get_or_init` return that value. -/
  agree : ∀ value ∈ h.returned, h.stored = [value]
  /-- `set` has stored its argument or hands it back. -/
  sets : ∀ r ∈ h.sets, r.2 = .ok () ∧ h.stored = [r.1] ∨ r.2 = .error r.1
  oks : h.oks.length ≤ 1
  inits : h.inits ≤ 1
  woken : AllWoken s

theorem created_inv {p : St ι T × Hist T} (h : Created p) :
    p.1.Inv p.2 ∧ Bell.Inv (bell p.1) := by
  -- a new cell and one that holds a value differ in the three fields that speak of what is stored
  rcases h with rfl | ⟨value, rfl⟩ <;>
    refine ⟨{
      fresh := ?_
      full := ?_
      stored := ?_
      free := fun _ _ => rfl
      unique := fun _ _ hi => by cases hi
      pending := fun _ hi => by cases hi
      ok := fun _ => trivial
      agree := fun _ hmem => absurd hmem List.not_mem_nil
      sets := fun _ hmem => absurd hmem List.not_mem_nil
      oks := Nat.zero_le 1
      inits := Nat.zero_le 1 },
      fun j hj => absurd hj (Bell.Task.not_relies (.inl rfl)),
      fun _ j hj => absurd hj.relies (Bell.Task.not_relies (.inl rfl))⟩
  · exact fun _ => ⟨rfl, rfl, rfl⟩
  · rintro ⟨⟩
  · exact Nat.zero_le 1
  · rintro ⟨⟩
  · exact fun _ => ⟨value, rfl, rfl⟩
  · exact Nat.le_refl 1

theorem once_inv [DecidableEq ι] {tr : List (Act ι T)} {p : St ι T × Hist T} (h : OnceRun tr p) :
    p.1.Inv p.2 ∧ Bell.Inv (bell p.1) := by
  refine h.invariant (I := fun _ p => p.1.Inv p.2 ∧ Bell.Inv (bell p.1)) (fun _ => created_inv) ?_
  rintro tr p a p' ⟨hinv, hbell⟩ - hst
  obtain ⟨s', hst', rfl⟩ := Option.map_eq_some_iff.mp hst
  exact ⟨Inv.step hinv hst', hbell.step (step_bell hst')⟩

/-- In every run the cell is initialised once, everybody agrees on its value, and no waiter
is stranded. -/
theorem once_cell_sound [DecidableEq ι] (tr : List (Act ι T)) (p : St ι T × Hist T)
    (h : OnceRun tr p) : OnceOk p.1 p.2 := by
  obtain ⟨hinv, hbell⟩ := once_inv h
  refine ⟨hinv.stored, hinv.agree, hinv.sets, hinv.oks, hinv.inits, fun hquiet hinit j hj => ?_⟩
  have hring (k : ι) : ((bell p.1).task k).phase ≠ .ringing := by
    intro hring
    have hidle := hquiet k
    cases hact : (p.1.task k).activity with
    | call pc => simp [hact, Activity.isCall] at hidle
    | _ => simp [bell, Task.bell, hact, Activity.phase] at hring
  refine hbell.all_awake hring (decide_eq_true hinit) (j := j) ?_
  have hok := hinv.ok j
  cases hact : (p.1.task j).activity with
  | pendingWait => simp [bell, Task.bell, hact, Activity.phase]
  | pendingInit =>
    -- its initialiser has not run to its end, so the cell is not initialised
    rw [St.acts, hact] at hok
    cases hinit.symm.trans hok.1
  | idle | call pc => simp [hact, Activity.isPending] at hj

/-- Task 0 runs the initialiser, which is pending once; task 1 waits for it, and the `set` of
task 2 gets its argument back. Then task 0 is polled to the end, and task 2 reads the cell. -/
def racedInit : List (Act (Fin 3) Nat) :=
  [[.getOrInit 0], .replicate 3 (.run 0 none),
    [.getOrInit 1], .replicate 5 (.run 1 none),
    [.set 2 8, .run 2 none],
    [.poll 0], .replicate 4 (.run 0 (some 7)),
    [.get 2], .replicate 2 (.run 2 none)].flatten

theorem once_cell_sound_racedInit :
    ∃ (tr : List (Act (Fin 3) Nat)) (p : St (Fin 3) Nat × Hist Nat), OnceRun tr p ∧
      p.2.stored = [7] ∧ p.2.returned = [7, 7] ∧ p.2.inits = 1 ∧ p.2.sets.length = 1 ∧
      (p.1.task 1).activity.isPending ∧ (p.1.task 1).woken ∧ OnceOk p.1 p.2 := by
  obtain ⟨p, hrun, hstored, hreturned, hinits, hsets, hpending, hinit, hquiet⟩ :
      ∃ p, OnceRun racedInit.reverse p ∧ p.2.stored = [7] ∧ p.2.returned = [7, 7] ∧ p.2.inits = 1 ∧
        p.2.sets.length = 1 ∧ (p.1.task 1).activity.isPending ∧ p.1.state = .init ∧
        ∀ j, (p.1.task j).activity.isCall = false :=
    Run.exists_of_exec racedInit (St.new, Hist.empty) (.inl rfl) (by decide +kernel)
  have hok := once_cell_sound _ p hrun
  exact ⟨_, p, hrun, hstored, hreturned, hinits, hsets, hpending,
    hok.woken hquiet hinit 1 hpending, hok⟩

end Dtact.OnceCell
