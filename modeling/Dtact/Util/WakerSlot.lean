import Mathlib.Logic.Function.Basic
import Dtact.Lib.Transition

/-!
# `AtomicWakerSlot`: one registrar, any number of wakers

`register` takes the word from `WAITING` to `REGISTERING`, updates the cell and gives the word back;
`take_and_wake` takes it to `WAKING`, empties the cell and wakes what it found. A `take_and_wake`
that finds the word taken sets the `WAKING` bit with a `fetch_or` and leaves the delivery to the
holder. If the holder gives the word back in between, the bit is set on a free slot. Every operation
on the word and every access to the cell is one step.
-/

namespace Dtact.WakerSlot

open Transition

/-! ## The slot -/

def waiting : Nat := 0
def registering : Nat := 1
def waking : Nat := 2

/-- Where the thread that calls `register` is, named after the operation it performs next.
`acquire`, `release` and `reset` are on the state, `compare`, `store` and `take` on the waker;
`wakeDirect` is `wake_by_ref` on the argument. -/
inductive RegPc (W : Type)
  | idle
  | acquire (w : W)
  | compare (w : W)
  | store (w : W)
  | release
  | take
  | reset (pending : Option W)
  | wake (pending : Option W)
  | wakeDirect (w : W)
deriving DecidableEq

/-- Where a thread that calls `take_and_wake` is. `defer` is the `fetch_or` that leaves the wake
to `register`. -/
inductive TakePc (W : Type)
  | idle
  | acquire
  | take
  | reset (found : Option W)
  | wake (found : Option W)
  | defer
deriving DecidableEq

/-- The slot with the threads that use it. Takers are numbered; there is no
bound on them. -/
structure Slot (W : Type) where
  word : Nat
  cell : Option W
  reg : RegPc W
  takers : Nat → TakePc W

/-- `AtomicWakerSlot::new`, with no call in progress. -/
def Slot.new (W : Type) : Slot W := ⟨waiting, none, .idle, fun _ => .idle⟩

/-- `register w` and `takeAndWake t` begin a call, `reg` and `taker t` are the
next step of the thread. -/
inductive Act (W : Type)
  | register (w : W)
  | reg
  | takeAndWake (t : Nat)
  | taker (t : Nat)

variable {W τ : Type}

/-- One step of the registrar. `willWake` is `Waker::will_wake`. -/
def regStep (willWake : W → W → Bool) (s : Slot W) : Option (Slot W) :=
  match s.reg with
  | .idle => none
  | .acquire w =>
    if s.word = waiting then some { s with word := registering, reg := .compare w }
    else some { s with reg := .wakeDirect w }
  | .compare w =>
    if s.cell.any fun old => willWake old w then some { s with reg := .release }
    else some { s with reg := .store w }
  | .store w => some { s with cell := some w, reg := .release }
  | .release =>
    if s.word = registering then some { s with word := waiting, reg := .idle }
    else some { s with reg := .take }
  | .take => some { s with cell := none, reg := .reset s.cell }
  | .reset p => some { s with word := waiting, reg := .wake p }
  | .wake _ => some { s with reg := .idle }
  | .wakeDirect _ => some { s with reg := .idle }

/-- One step of taker `t`. -/
def takerStep (t : Nat) (s : Slot W) : Option (Slot W) :=
  match s.takers t with
  | .idle => none
  | .acquire =>
    if s.word = waiting then
      some { s with word := waking, takers := Function.update s.takers t .take }
    else some { s with takers := Function.update s.takers t .defer }
  | .take =>
    some { s with cell := none, takers := Function.update s.takers t (.reset s.cell) }
  | .reset p =>
    some { s with word := waiting, takers := Function.update s.takers t (.wake p) }
  | .wake _ => some { s with takers := Function.update s.takers t .idle }
  | .defer =>
    some { s with word := s.word ||| waking, takers := Function.update s.takers t .idle }

variable {willWake : W → W → Bool} {s s' : Slot W} {t : Nat} {pc : TakePc W} {task : W → τ}

theorem regStep_takers (h : regStep willWake s = some s') : s'.takers = s.takers := by
  simp only [regStep] at h
  repeat' split at h
  all_goals cases h
  all_goals rfl

def step (willWake : W → W → Bool) : Act W → Slot W → Option (Slot W)
  | .register w, s => if s.reg matches .idle then some { s with reg := .acquire w } else none
  | .reg, s => regStep willWake s
  | .takeAndWake t, s =>
    if s.takers t matches .idle then
      some { s with takers := Function.update s.takers t .acquire }
    else none
  | .taker t, s => takerStep t s

/-! ## The history -/

/-- What has happened to one `register` call. -/
structure Call (W : Type) where
  waker : W
  /-- A waker of the same task was woken since the call began. -/
  woken : Bool
  /-- The cell was overwritten with the waker of another task after the call
  returned. -/
  replaced : Bool
  /-- The takers whose call in progress began after this call returned. -/
  since : Nat → Bool
  /-- A `take_and_wake` that began after this call returned has returned. -/
  served : Bool

/-- The `register` call in progress and those that have returned. -/
structure Hist (W : Type) where
  current : Option (Call W)
  returned : List (Call W)

def Hist.empty (W : Type) : Hist W := ⟨none, []⟩

inductive Event (W : Type)
  | regBegin (w : W)
  | stored (w : W)
  | regEnd
  | takeBegin (t : Nat)
  | takeEnd (t : Nat)
  | woke (w : W)

/-- The events of an action, in order, from the state the action is taken in. -/
def observe (a : Act W) (s : Slot W) : List (Event W) :=
  match a with
  | .register w => [.regBegin w]
  | .reg =>
    match s.reg with
    | .store w => [.stored w]
    | .release => if s.word = registering then [.regEnd] else []
    | .wake (some w) => [.woke w, .regEnd]
    | .wake none => [.regEnd]
    | .wakeDirect w => [.woke w, .regEnd]
    | _ => []
  | .takeAndWake t => [.takeBegin t]
  | .taker t =>
    match s.takers t with
    | .wake (some w) => [.woke w, .takeEnd t]
    | .wake none => [.takeEnd t]
    | .defer => [.takeEnd t]
    | _ => []

section

variable [DecidableEq τ]

/-- What an event means for a `register` call that has returned. -/
def Call.on (task : W → τ) (c : Call W) : Event W → Call W
  | .woke w => { c with woken := c.woken || decide (task w = task c.waker) }
  | .stored w => { c with replaced := c.replaced || decide (task w ≠ task c.waker) }
  | .takeBegin t => { c with since := Function.update c.since t true }
  | .takeEnd t =>
    { c with served := c.served || c.since t, since := Function.update c.since t false }
  | .regBegin _ | .regEnd => c

def Hist.record (task : W → τ) (h : Hist W) (e : Event W) : Hist W :=
  match e with
  | .regBegin w => { h with current := some ⟨w, false, false, fun _ => false, false⟩ }
  | .regEnd => ⟨none, h.current.toList ++ h.returned⟩
  | .woke w => ⟨h.current.map (·.on task (.woke w)), h.returned.map (·.on task (.woke w))⟩
  | e => { h with returned := h.returned.map (·.on task e) }

/-- The history variable: `task` maps a waker to the task it wakes. -/
def upd (task : W → τ) (a : Act W) (s : Slot W) (h : Hist W) : Hist W :=
  (observe a s).foldl (Hist.record task) h

end

/-! ## The properties -/

def RegPc.accesses : RegPc W → Prop
  | .compare _ | .store _ | .take => True
  | _ => False

def TakePc.accesses : TakePc W → Prop
  | .take => True
  | _ => False

/-- No two threads are at an access to the cell. -/
def CellExclusive (s : Slot W) : Prop :=
  (∀ t, (s.takers t).accesses → ¬ s.reg.accesses) ∧
  ∀ t t', (s.takers t).accesses → (s.takers t').accesses → t = t'

def Quiescent (s : Slot W) : Prop := s.reg = .idle ∧ ∀ t, s.takers t = .idle

/-- A call in progress has taken a waker of the task of `w` from the cell and
will wake it. -/
def Carried (task : W → τ) (s : Slot W) (w : W) : Prop :=
  ∃ w', task w' = task w ∧
    (s.reg = .reset (some w') ∨ s.reg = .wake (some w') ∨
      ∃ t, s.takers t = .reset (some w') ∨ s.takers t = .wake (some w'))

/-- The call that holds the slot will empty the cell before it gives the slot
back: a taker that has not emptied it yet, or a registrar that will find the
`WAKING` bit. -/
def Committed (s : Slot W) : Prop :=
  (∃ t, s.takers t = .take) ∨
  (s.word = registering ||| waking ∧
    (s.reg = .release ∨ s.reg = .take ∨ ∃ w, s.reg = .compare w ∨ s.reg = .store w))

/-- The cell holds a waker of the task of `w`. -/
def Live (task : W → τ) (s : Slot W) (w : W) : Prop :=
  ∃ w', s.cell = some w' ∧ task w' = task w

/-- A call in progress is bound to wake the task of `w`. -/
def Delivering (task : W → τ) (s : Slot W) (w : W) : Prop :=
  Carried task s w ∨ (Live task s w ∧ Committed s)

/-- The step is not a `fetch_or` on a slot that nobody holds. -/
def NoLateDefer (s : Slot W) (a : Act W) : Prop :=
  ∀ t, a = .taker t → s.takers t = .defer → s.word ≠ waiting

/-! ## What a step can do -/

/-- The transitions of the slot, one constructor per outcome. -/
inductive Trans (willWake : W → W → Bool) (s : Slot W) : Act W → Slot W → Prop
  | register (w : W) : s.reg = .idle → Trans willWake s (.register w) { s with reg := .acquire w }
  | acquired (w : W) : s.reg = .acquire w → s.word = waiting →
      Trans willWake s .reg { s with word := registering, reg := .compare w }
  | busy (w : W) : s.reg = .acquire w → s.word ≠ waiting →
      Trans willWake s .reg { s with reg := .wakeDirect w }
  | same (w old : W) : s.reg = .compare w → s.cell = some old → willWake old w = true →
      Trans willWake s .reg { s with reg := .release }
  | differs (w : W) : s.reg = .compare w → Trans willWake s .reg { s with reg := .store w }
  | stored (w : W) : s.reg = .store w →
      Trans willWake s .reg { s with cell := some w, reg := .release }
  | released : s.reg = .release → s.word = registering →
      Trans willWake s .reg { s with word := waiting, reg := .idle }
  | notified : s.reg = .release → s.word ≠ registering →
      Trans willWake s .reg { s with reg := .take }
  | regTook : s.reg = .take → Trans willWake s .reg { s with cell := none, reg := .reset s.cell }
  | regReset (p : Option W) : s.reg = .reset p →
      Trans willWake s .reg { s with word := waiting, reg := .wake p }
  | regWoke (p : Option W) : s.reg = .wake p → Trans willWake s .reg { s with reg := .idle }
  | wokeDirect (w : W) : s.reg = .wakeDirect w → Trans willWake s .reg { s with reg := .idle }
  | takeAndWake (t : Nat) : s.takers t = .idle →
      Trans willWake s (.takeAndWake t) { s with takers := Function.update s.takers t .acquire }
  | won (t : Nat) : s.takers t = .acquire → s.word = waiting →
      Trans willWake s (.taker t)
        { s with word := waking, takers := Function.update s.takers t .take }
  | lost (t : Nat) : s.takers t = .acquire → s.word ≠ waiting →
      Trans willWake s (.taker t) { s with takers := Function.update s.takers t .defer }
  | took (t : Nat) : s.takers t = .take →
      Trans willWake s (.taker t)
        { s with cell := none, takers := Function.update s.takers t (.reset s.cell) }
  | reset (t : Nat) (p : Option W) : s.takers t = .reset p →
      Trans willWake s (.taker t)
        { s with word := waiting, takers := Function.update s.takers t (.wake p) }
  | woke (t : Nat) (p : Option W) : s.takers t = .wake p →
      Trans willWake s (.taker t) { s with takers := Function.update s.takers t .idle }
  | deferred (t : Nat) : s.takers t = .defer →
      Trans willWake s (.taker t)
        { s with word := s.word ||| waking, takers := Function.update s.takers t .idle }

theorem trans_of_step {a : Act W} (h : step willWake a s = some s') : Trans willWake s a s' := by
  cases a with
  | register w =>
    simp only [step] at h
    split at h
    · next hr => cases h; exact .register w hr
    · cases h
  | reg =>
    simp only [step, regStep] at h
    split at h
    · cases h
    · next w hr =>
      split at h
      · next hw => cases h; exact .acquired w hr hw
      · next hw => cases h; exact .busy w hr hw
    · next w hr =>
      split at h
      · next hw =>
        cases h
        obtain ⟨old, hc, ho⟩ := (Option.any_eq_true _ _).mp hw
        exact .same w old hr hc ho
      · cases h; exact .differs w hr
    · next w hr => cases h; exact .stored w hr
    · next hr =>
      split at h
      · next hw => cases h; exact .released hr hw
      · next hw => cases h; exact .notified hr hw
    · next hr => cases h; exact .regTook hr
    · next p hr => cases h; exact .regReset p hr
    · next p hr => cases h; exact .regWoke p hr
    · next w hr => cases h; exact .wokeDirect w hr
  | takeAndWake t =>
    simp only [step] at h
    split at h
    · next hr => cases h; exact .takeAndWake t hr
    · cases h
  | taker t =>
    simp only [step, takerStep] at h
    split at h
    · cases h
    · next ht =>
      split at h
      · next hw => cases h; exact .won t ht hw
      · next hw => cases h; exact .lost t ht hw
    · next ht => cases h; exact .took t ht
    · next p ht => cases h; exact .reset t p ht
    · next p ht => cases h; exact .woke t p ht
    · next ht => cases h; exact .deferred t ht

/-! ## 1. Exclusion -/

def RegPc.holds : RegPc W → Prop
  | .compare _ | .store _ | .release | .take | .reset _ => True
  | _ => False

def TakePc.holds : TakePc W → Prop
  | .take | .reset _ => True
  | _ => False

inductive Holder
  | nobody
  | registrar
  | taker (t : Nat)

/-- The values the word can have under a holder. On a free slot a stray
`WAKING` bit may be set. -/
def Holder.word : Holder → Nat → Prop
  | .nobody, x => x = waiting ∨ x = waking
  | .registrar, x => x = registering ∨ x = registering ||| waking
  | .taker _, x => x = waking

/-- `o` holds the slot: the threads inside the two critical sections and the
word agree on it. -/
structure HeldBy (s : Slot W) (o : Holder) : Prop where
  reg : s.reg.holds ↔ o = .registrar
  taker : ∀ t, (s.takers t).holds ↔ o = .taker t
  word : o.word s.word

variable {o : Holder}

/-- A step of the registrar that neither enters nor leaves its critical
section. -/
theorem HeldBy.reg_step (h : HeldBy s o) {pc : RegPc W} {c : Option W}
    (hpc : pc.holds ↔ s.reg.holds) : HeldBy { s with cell := c, reg := pc } o :=
  ⟨hpc.trans h.reg, h.taker, h.word⟩

/-- A step of a taker that neither enters nor leaves its critical section. -/
theorem HeldBy.taker_step (h : HeldBy s o) {c : Option W} (hpc : pc.holds ↔ (s.takers t).holds) :
    HeldBy { s with cell := c, takers := Function.update s.takers t pc } o := by
  refine ⟨h.reg, fun u => ?_, h.word⟩
  by_cases hu : u = t
  · subst hu
    simpa using hpc.trans (h.taker u)
  · simpa [Function.update_of_ne hu] using h.taker u

/-- The holder of the slot once taker `t` has entered its critical section. -/
theorem HeldBy.taker_enter (h : HeldBy s .nobody) (hpc : pc.holds) :
    HeldBy { s with word := waking, takers := Function.update s.takers t pc } (.taker t) := by
  refine ⟨by simpa using h.reg, fun u => ?_, rfl⟩
  by_cases hu : u = t
  · subst hu
    simpa using hpc
  · have hn : ¬ (s.takers u).holds := fun hh => nomatch (h.taker u).mp hh
    simp [Function.update_of_ne hu, hn, Ne.symm hu]

/-- The slot is free once taker `t` has left its critical section. -/
theorem HeldBy.taker_leave (h : HeldBy s (.taker t)) (hpc : ¬ pc.holds) :
    HeldBy { s with word := waiting, takers := Function.update s.takers t pc } .nobody := by
  refine ⟨by simpa using h.reg, fun u => ?_, Or.inl rfl⟩
  by_cases hu : u = t
  · subst hu
    simpa using hpc
  · have hn : ¬ (s.takers u).holds := fun hh => by
      cases (h.taker u).mp hh
      exact hu rfl
    simpa [Function.update_of_ne hu] using hn

theorem HeldBy.nobody_of_waiting (h : HeldBy s o) (hw : s.word = waiting) : o = .nobody := by
  have := h.word
  rw [hw] at this
  cases o <;> simp_all [Holder.word, waiting, registering, waking]

/-- Setting the `WAKING` bit never changes who holds the slot. -/
theorem word_or_waking {x : Nat} (h : o.word x) : o.word (x ||| waking) := by
  cases o with
  | nobody | registrar => rcases h with rfl | rfl <;> exact Or.inr rfl
  | taker t => cases h; rfl

theorem HeldBy.step {a : Act W} (h : HeldBy s o) (ht : Trans willWake s a s') :
    ∃ o', HeldBy s' o' ∧ (NoLateDefer s a → (o = .nobody → s.word = waiting) →
      o' = .nobody → s'.word = waiting) := by
  cases ht with
  | register w hr | busy w hr _ | same w old hr _ _ | differs w hr | stored w hr | notified hr _
  | regTook hr | regWoke p hr
  | wokeDirect w hr => exact ⟨o, h.reg_step (by simp [hr, RegPc.holds]), fun _ hn => hn⟩
  | acquired w hr hw =>
    obtain rfl := h.nobody_of_waiting hw
    refine ⟨.registrar, ⟨by simp [RegPc.holds], fun t => ?_, Or.inl rfl⟩, nofun⟩
    simpa using h.taker t
  | released hr _ | regReset p hr =>
    obtain rfl := h.reg.mp (by simp [hr, RegPc.holds])
    exact ⟨.nobody, ⟨by simp [RegPc.holds], fun t => by simpa using h.taker t, Or.inl rfl⟩,
      fun _ _ _ => rfl⟩
  | takeAndWake t hr | lost t hr _ | took t hr
  | woke t p hr => exact ⟨o, h.taker_step (by simp [hr, TakePc.holds]), fun _ hn => hn⟩
  | won t hr hw =>
    obtain rfl := h.nobody_of_waiting hw
    exact ⟨.taker t, h.taker_enter (by simp [TakePc.holds]), nofun⟩
  | reset t p hr =>
    obtain rfl := (h.taker t).mp (by simp [hr, TakePc.holds])
    exact ⟨.nobody, h.taker_leave (by simp [TakePc.holds]), fun _ _ _ => rfl⟩
  | deferred t hr =>
    have h' : HeldBy { s with takers := Function.update s.takers t .idle } o :=
      h.taker_step (by simp [hr, TakePc.holds])
    exact ⟨o, ⟨h'.reg, h'.taker, word_or_waking h'.word⟩,
      fun hd hn ho => absurd (hn ho) (hd t rfl hr)⟩

/-- The two critical sections exclude each other, so no two threads are at an
access to the cell. -/
theorem HeldBy.exclusive (h : HeldBy s o) : CellExclusive s := by
  have reg_holds : s.reg.accesses → s.reg.holds := by
    cases s.reg <;> simp [RegPc.accesses, RegPc.holds]
  have taker_holds : ∀ t, (s.takers t).accesses → (s.takers t).holds := by
    intro t
    cases s.takers t <;> simp [TakePc.accesses, TakePc.holds]
  refine ⟨fun t ht hr => ?_, fun t t' ht ht' => ?_⟩
  · have h₁ := (h.taker t).mp (taker_holds t ht)
    have h₂ := h.reg.mp (reg_holds hr)
    rw [h₁] at h₂
    cases h₂
  · have h₁ := (h.taker t).mp (taker_holds t ht)
    have h₂ := (h.taker t').mp (taker_holds t' ht')
    rw [h₁] at h₂
    cases h₂
    rfl

theorem heldBy_new : HeldBy (Slot.new W) .nobody :=
  ⟨by simp [Slot.new, RegPc.holds], fun t => by simp [Slot.new, TakePc.holds], Or.inl rfl⟩

/-- In every run the cell is accessed by at most one thread at a time. -/
theorem cell_exclusive {tr : List (Act W)} (h : Run (· = Slot.new W) (step willWake) Free tr s) :
    CellExclusive s := by
  have hi : ∃ o, HeldBy s o := by
    refine h.invariant (I := fun _ s => ∃ o, HeldBy s o) ?_ ?_
    · rintro s rfl
      exact ⟨_, heldBy_new⟩
    · rintro tr s a s' ⟨o, ho⟩ _ hs
      obtain ⟨o', ho', _⟩ := ho.step (trans_of_step hs)
      exact ⟨o', ho'⟩
  obtain ⟨o, ho⟩ := hi
  exact ho.exclusive

/-! ## 2. No wake is lost while no `fetch_or` comes too late -/

/-- What the `register` call `c` in progress has achieved so far. -/
def PcOk (task : W → τ) (s : Slot W) (c : Call W) : Prop :=
  match s.reg with
  | .idle => False
  | .acquire w | .compare w | .store w | .wakeDirect w => task w = task c.waker
  | .release | .take => Live task s c.waker
  | .reset p | .wake p => ∃ w, p = some w ∧ task w = task c.waker

def CurrentOk (task : W → τ) (s : Slot W) : Option (Call W) → Prop
  | none => s.reg = .idle
  | some c => c.replaced = false ∧ c.served = false ∧ (∀ t, c.since t = false) ∧ PcOk task s c

/-- What is known of a `register` call that has returned. -/
structure CallOk (task : W → τ) (s : Slot W) (c : Call W) : Prop where
  /-- Its waker is not lost. -/
  settled : c.woken ∨ c.replaced ∨ Carried task s c.waker ∨ Live task s c.waker
  /-- A taker that began after it and has emptied the cell left nothing behind. -/
  past : ∀ t, c.since t → (∃ p, s.takers t = .reset p ∨ s.takers t = .wake p) →
    c.woken ∨ c.replaced ∨ Carried task s c.waker
  served : c.served → c.woken ∨ c.replaced ∨ Delivering task s c.waker

/-- The invariant of the runs without a late `fetch_or`. -/
structure Sound (task : W → τ) (s : Slot W) (h : Hist W) : Prop where
  held : ∃ o, HeldBy s o ∧ (o = .nobody → s.word = waiting)
  failed : (s.reg = .take ∨ ∃ p, s.reg = .reset p) → s.word = registering ||| waking
  emptied : ((∃ p, s.reg = .reset p) ∨ ∃ t p, s.takers t = .reset p) → s.cell = none
  current : CurrentOk task s h.current
  returned : ∀ c ∈ h.returned, CallOk task s c

namespace WakerSlotLemmas

variable {a : Act W} {w : W} {c : Call W} {evs : List (Event W)} {hist : Hist W}

/-- A waker that a call carries is carried on or woken. -/
theorem carried_step (h : Trans willWake s a s') (hc : Carried task s w) :
    Carried task s' w ∨ ∃ w', Event.woke w' ∈ observe a s ∧ task w' = task w := by
  obtain ⟨w', hw', hc⟩ := hc
  cases h with
  | regReset p hr =>
    refine Or.inl ⟨w', hw', ?_⟩
    rcases hc with hc | hc | hc
    · rw [hr] at hc
      cases hc
      exact Or.inr (Or.inl rfl)
    · rw [hr] at hc
      cases hc
    · exact Or.inr (Or.inr hc)
  | regWoke p hr =>
    rcases hc with hc | hc | hc
    · rw [hr] at hc
      cases hc
    · rw [hr] at hc
      cases hc
      exact Or.inr ⟨w', by simp [observe, hr], hw'⟩
    · exact Or.inl ⟨w', hw', Or.inr (Or.inr hc)⟩
  | reset t p ht =>
    refine Or.inl ⟨w', hw', ?_⟩
    rcases hc with hc | hc | ⟨u, hc⟩
    · exact Or.inl hc
    · exact Or.inr (Or.inl hc)
    · refine Or.inr (Or.inr ⟨u, ?_⟩)
      by_cases hu : u = t
      · subst hu
        rw [ht] at hc
        rcases hc with hc | hc <;> cases hc
        exact Or.inr (by simp)
      · simpa [Function.update_of_ne hu] using hc
  | woke t p ht =>
    rcases hc with hc | hc | ⟨u, hc⟩
    · exact Or.inl ⟨w', hw', Or.inl hc⟩
    · exact Or.inl ⟨w', hw', Or.inr (Or.inl hc)⟩
    · by_cases hu : u = t
      · subst hu
        rw [ht] at hc
        rcases hc with hc | hc <;> cases hc
        exact Or.inr ⟨w', by simp [observe, ht], hw'⟩
      · exact Or.inl ⟨w', hw', Or.inr (Or.inr ⟨u, by simpa [Function.update_of_ne hu] using hc⟩)⟩
  | takeAndWake t ht | won t ht _ | lost t ht _ | took t ht | deferred t ht =>
    refine Or.inl ⟨w', hw', ?_⟩
    rcases hc with hc | hc | ⟨u, hc⟩
    · exact Or.inl hc
    · exact Or.inr (Or.inl hc)
    · have hu : u ≠ t := by
        rintro rfl
        rw [ht] at hc
        rcases hc with hc | hc <;> cases hc
      exact Or.inr (Or.inr ⟨u, by simpa [Function.update_of_ne hu] using hc⟩)
  | register w hr | acquired w hr _ | busy w hr _ | same w old hr _ _ | differs w hr
  | stored w hr | released hr _ | notified hr _ | regTook hr | wokeDirect w hr =>
    rw [hr] at hc
    refine Or.inl ⟨w', hw', Or.inr (Or.inr ?_)⟩
    rcases hc with hc | hc | hc
    · cases hc
    · cases hc
    · exact hc

/-- A waker in the cell stays there, is taken by a call that will wake it, or is
overwritten. -/
theorem live_step (h : Trans willWake s a s') (hl : Live task s w) :
    Live task s' w ∨ Carried task s' w ∨
      ∃ w', Event.stored w' ∈ observe a s ∧ task w' ≠ task w := by
  obtain ⟨v, hv, hvw⟩ := hl
  cases h with
  | stored u hr =>
    by_cases hu : task u = task w
    · exact Or.inl ⟨u, rfl, hu⟩
    · exact Or.inr (Or.inr ⟨u, by simp [observe, hr], hu⟩)
  | regTook hr => exact Or.inr (Or.inl ⟨v, hvw, Or.inl (by simp [hv])⟩)
  | took t ht => exact Or.inr (Or.inl ⟨v, hvw, Or.inr (Or.inr ⟨t, Or.inl (by simp [hv])⟩)⟩)
  | _ => exact Or.inl ⟨v, hv, hvw⟩

/-- A holder bound to empty the cell does not give the slot back before. -/
theorem committed_step (h : Trans willWake s a s') (hs : ∃ o, HeldBy s o) (hl : Live task s w)
    (hc : Committed s) : Committed s' ∨ Carried task s' w := by
  obtain ⟨v, hv, hvw⟩ := hl
  obtain ⟨o, ho⟩ := hs
  rcases hc with ⟨u, hu⟩ | ⟨hw, hr⟩
  · -- a taker is about to empty the cell, so nobody else is inside
    have hou : o = .taker u := (ho.taker u).mp (by simp [hu, TakePc.holds])
    subst hou
    cases h with
    | took t ht =>
      obtain rfl : t = u := by
        have := (ho.taker t).mp (by simp [ht, TakePc.holds])
        cases this
        rfl
      exact Or.inr ⟨v, hvw, Or.inr (Or.inr ⟨t, Or.inl (by simp [hv])⟩)⟩
    | takeAndWake t ht | won t ht _ | lost t ht _ | reset t p ht | woke t p ht | deferred t ht =>
      have htu : u ≠ t := by
        rintro rfl
        rw [hu] at ht
        cases ht
      exact Or.inl (Or.inl ⟨u, by simpa [Function.update_of_ne htu] using hu⟩)
    | _ => exact Or.inl (Or.inl ⟨u, hu⟩)
  · have hreg : s.reg.holds := by
      rcases hr with hr | hr | ⟨x, hr | hr⟩ <;> simp [hr, RegPc.holds]
    obtain rfl := ho.reg.mp hreg
    have hne : s.word ≠ waiting := by simp [hw, waiting, registering, waking]
    cases h with
    | register w hr' | acquired w hr' _ | busy w hr' _ | regReset p hr' | regWoke p hr'
    | wokeDirect w hr' => simp [hr'] at hr
    | same x old hr' _ _ | stored x hr' => exact Or.inl (Or.inr ⟨hw, Or.inl rfl⟩)
    | differs x hr' => exact Or.inl (Or.inr ⟨hw, Or.inr (Or.inr ⟨x, Or.inr rfl⟩)⟩)
    | released hr' hw' => simp [hw, registering, waking] at hw'
    | notified hr' _ => exact Or.inl (Or.inr ⟨hw, Or.inr (Or.inl rfl)⟩)
    | regTook hr' => exact Or.inr ⟨v, hvw, Or.inl (by simp [hv])⟩
    | takeAndWake t ht | lost t ht _ | took t ht | woke t p ht => exact Or.inl (Or.inr ⟨hw, hr⟩)
    | won t ht hw' => exact absurd hw' hne
    | reset t p ht => exact nomatch (ho.taker t).mp (by simp [ht, TakePc.holds])
    | deferred t ht =>
      refine Or.inl (Or.inr ⟨?_, hr⟩)
      simp [hw, registering, waking]

/-! The events of one action, seen by one call. -/

/-- A `fetch_or` on a slot that is held binds the holder to empty the cell. -/
theorem committed_of_deferred (ht : s.takers t = .defer) {h : Hist W} (hs : Sound task s h)
    (hw : s.word ≠ waiting) (hl : Live task s w) :
    Committed { s with word := s.word ||| waking, takers := Function.update s.takers t .idle } := by
  obtain ⟨o, ho, hn⟩ := hs.held
  obtain ⟨v, hv, _⟩ := hl
  have hfull : s.cell ≠ none := by simp [hv]
  cases o with
  | nobody => exact absurd (hn rfl) hw
  | registrar =>
    have hword : s.word ||| waking = registering ||| waking := by
      rcases ho.word with h | h <;> simp [h, registering, waking]
    refine Or.inr ⟨hword, ?_⟩
    have hh := ho.reg.mpr rfl
    cases hr : s.reg with
    | release => exact Or.inl rfl
    | take => exact Or.inr (Or.inl rfl)
    | compare x => exact Or.inr (Or.inr ⟨x, Or.inl rfl⟩)
    | store x => exact Or.inr (Or.inr ⟨x, Or.inr rfl⟩)
    | reset p => exact absurd (hs.emptied (Or.inl ⟨p, hr⟩)) hfull
    | _ => simp [hr, RegPc.holds] at hh
  | taker u =>
    have hh := (ho.taker u).mpr rfl
    have hu : u ≠ t := by
      rintro rfl
      simp [ht, TakePc.holds] at hh
    refine Or.inl ⟨u, ?_⟩
    cases hr : s.takers u with
    | take => simp [Function.update_of_ne hu, hr]
    | reset p => exact absurd (hs.emptied (Or.inr ⟨u, p, hr⟩)) hfull
    | _ => simp [hr, TakePc.holds] at hh

/-- A `take_and_wake` returns from its wake or from its `fetch_or`. -/
theorem takeEnd_cases (he : Event.takeEnd t ∈ observe a s) :
    a = .taker t ∧ ((∃ p, s.takers t = .wake p) ∨ s.takers t = .defer) := by
  cases a with
  | register w | takeAndWake u => simp [observe] at he
  | reg =>
    simp only [observe] at he
    repeat' split at he
    all_goals simp at he
  | taker u =>
    obtain rfl : t = u := by
      simp only [observe] at he
      split at he <;> simp at he <;> exact he
    refine ⟨rfl, ?_⟩
    cases ht : s.takers t with
    | wake p => exact .inl ⟨p, rfl⟩
    | defer => exact .inr rfl
    | _ => simp [observe, ht] at he

theorem takeBegin_cases (h : Trans willWake s a s') (he : Event.takeBegin t ∈ observe a s) :
    s.takers t = .idle := by
  cases a with
  | register w => simp [observe] at he
  | takeAndWake u =>
    obtain rfl : t = u := by simpa [observe] using he
    cases h with
    | takeAndWake _ ht => exact ht
  | reg | taker u =>
    simp only [observe] at he
    repeat' split at he
    all_goals simp at he

theorem currentOk_next {s' : Slot W} {o o' : Option (Call W)} (ho : o' = o) (hr : s.reg ≠ .idle)
    (h : CurrentOk task s o) (hpc : ∀ c, PcOk task s c → PcOk task s' c) :
    CurrentOk task s' o' := by
  subst ho
  cases o' with
  | none => exact absurd h hr
  | some c => exact ⟨h.1, h.2.1, h.2.2.1, hpc c h.2.2.2⟩

theorem sound_new : Sound task (Slot.new W) (Hist.empty W) where
  held := ⟨.nobody, heldBy_new, fun _ => rfl⟩
  failed := by simp [Slot.new]
  emptied := fun _ => rfl
  current := rfl
  returned := by simp [Hist.empty]

theorem not_delivering_of_quiescent (h : Quiescent s) : ¬ Delivering task s w := by
  obtain ⟨hr, ht⟩ := h
  rintro (⟨w', _, hc⟩ | ⟨_, hc⟩)
  · simp [hr, ht] at hc
  · simp [Committed, hr, ht] at hc

variable [DecidableEq τ]

theorem on_waker (c : Call W) (evs : List (Event W)) :
    (evs.foldl (·.on task) c).waker = c.waker := by
  induction evs generalizing c with
  | nil => rfl
  | cons e evs ih =>
    rw [List.foldl_cons, ih]
    cases e <;> rfl

theorem on_woken (h : c.woken = true ∨ ∃ w, Event.woke w ∈ evs ∧ task w = task c.waker) :
    (evs.foldl (·.on task) c).woken = true := by
  induction evs generalizing c with
  | nil => simpa using h
  | cons e evs ih =>
    refine ih ?_
    rcases h with h | ⟨w, hw, ht⟩
    · cases e <;> simp [Call.on, h]
    · rcases List.mem_cons.mp hw with rfl | hw
      · exact Or.inl (by simp [Call.on, ht])
      · exact Or.inr ⟨w, hw, by cases e <;> exact ht⟩

theorem on_replaced (h : c.replaced = true ∨ ∃ w, Event.stored w ∈ evs ∧ task w ≠ task c.waker) :
    (evs.foldl (·.on task) c).replaced = true := by
  induction evs generalizing c with
  | nil => simpa using h
  | cons e evs ih =>
    refine ih ?_
    rcases h with h | ⟨w, hw, ht⟩
    · cases e <;> simp [Call.on, h]
    · rcases List.mem_cons.mp hw with rfl | hw
      · exact Or.inl (by simp [Call.on, ht])
      · exact Or.inr ⟨w, hw, by cases e <;> exact ht⟩

theorem on_since (h : (evs.foldl (·.on task) c).since t = true) :
    c.since t = true ∨ Event.takeBegin t ∈ evs := by
  induction evs generalizing c with
  | nil => exact Or.inl h
  | cons e evs ih =>
    rcases ih h with h | h
    · cases e with
      | takeBegin u =>
        by_cases hu : t = u
        · exact Or.inr (by simp [hu])
        · exact Or.inl (by simpa [Call.on, Function.update_of_ne hu] using h)
      | takeEnd u =>
        by_cases hu : t = u
        · simp [Call.on, hu] at h
        · exact Or.inl (by simpa [Call.on, Function.update_of_ne hu] using h)
      | _ => exact Or.inl h
    · exact Or.inr (List.mem_cons_of_mem _ h)

theorem on_served (h : (evs.foldl (·.on task) c).served = true) :
    c.served = true ∨
      ∃ t, Event.takeEnd t ∈ evs ∧ (c.since t = true ∨ Event.takeBegin t ∈ evs) := by
  induction evs generalizing c with
  | nil => exact Or.inl h
  | cons e evs ih =>
    rcases ih h with h | ⟨t, ht, h⟩
    · cases e with
      | takeEnd u =>
        rcases Bool.or_eq_true_iff.mp h with h | h
        · exact Or.inl h
        · exact Or.inr ⟨u, by simp, Or.inl h⟩
      | _ => exact Or.inl h
    · refine Or.inr ⟨t, List.mem_cons_of_mem _ ht, ?_⟩
      rcases h with h | h
      · have h : ([e].foldl (·.on task) c).since t = true := h
        rcases on_since h with h | h
        · exact Or.inl h
        · exact Or.inr (by simpa using Or.inl (List.mem_singleton.mp h))
      · exact Or.inr (List.mem_cons_of_mem _ h)

theorem record_returned (hevs : Event.regEnd ∉ evs) :
    (evs.foldl (Hist.record task) hist).returned =
      hist.returned.map (evs.foldl (·.on task) ·) := by
  induction evs generalizing hist with
  | nil => simp
  | cons e evs ih =>
    obtain ⟨hne, hevs⟩ := not_or.mp (mt List.mem_cons.mpr hevs)
    rw [List.foldl_cons, ih hevs]
    cases e with
    | regEnd => exact absurd rfl hne
    | regBegin w => rfl
    | _ => simp [Hist.record]

/-! The parts of the invariant, one step each. -/

section

variable (h : Trans willWake s a s')

include h

theorem failed_step (hs : ∃ o, HeldBy s o)
    (hf : (s.reg = .take ∨ ∃ p, s.reg = .reset p) → s.word = registering ||| waking) :
    (s'.reg = .take ∨ ∃ p, s'.reg = .reset p) → s'.word = registering ||| waking := by
  obtain ⟨o, ho⟩ := hs
  cases h with
  | notified hr hw =>
    intro _
    obtain rfl := ho.reg.mp (by simp [hr, RegPc.holds])
    exact ho.word.resolve_left hw
  | regTook hr => exact fun _ => hf (Or.inl hr)
  | register w hr | acquired w hr _ | busy w hr _ | same w old hr _ _ | differs w hr
  | stored w hr | released hr _ | regReset p hr | regWoke p hr | wokeDirect w hr => simp
  | takeAndWake t ht | lost t ht _ | took t ht | woke t p ht => exact hf
  | won t ht hw =>
    intro hr
    simp [hf hr, waiting, registering, waking] at hw
  | reset t p ht =>
    intro hr
    have h₁ := (ho.taker t).mp (by simp [ht, TakePc.holds])
    have h₂ := ho.reg.mp (by
      change s.reg = .take ∨ ∃ p, s.reg = .reset p at hr
      rcases hr with hr | ⟨p, hr⟩ <;> simp [hr, RegPc.holds])
    rw [h₁] at h₂
    cases h₂
  | deferred t ht =>
    intro hr
    simp [hf hr, registering, waking]

theorem emptied_step (hs : ∃ o, HeldBy s o)
    (he : ((∃ p, s.reg = .reset p) ∨ ∃ t p, s.takers t = .reset p) → s.cell = none) :
    ((∃ p, s'.reg = .reset p) ∨ ∃ t p, s'.takers t = .reset p) → s'.cell = none := by
  obtain ⟨o, ho⟩ := hs
  cases h with
  | stored w hr =>
    -- the registrar is inside, so no taker is about to reset
    rintro (⟨p, hp⟩ | ⟨t, p, hp⟩)
    · cases hp
    · have h₁ := (ho.taker t).mp (by simp only at hp; simp [hp, TakePc.holds])
      have h₂ := ho.reg.mp (by simp [hr, RegPc.holds])
      rw [h₁] at h₂
      cases h₂
  | regTook hr | took t ht => exact fun _ => rfl
  | register w hr | acquired w hr _ | busy w hr _ | same w old hr _ _ | differs w hr
  | released hr _ | notified hr _ | regReset p hr | regWoke p hr | wokeDirect w hr =>
    rintro (⟨p, hp⟩ | hp)
    · cases hp
    · exact he (Or.inr hp)
  | takeAndWake t ht | won t ht _ | lost t ht _ | reset t p ht | woke t p ht | deferred t ht =>
    rintro (hp | ⟨u, p, hp⟩)
    · exact he (Or.inl hp)
    · by_cases hu : u = t
      · subst hu
        simp at hp
      · exact he (Or.inr ⟨u, p, by simpa [Function.update_of_ne hu] using hp⟩)

theorem settled_step (hc : c.woken ∨ c.replaced ∨ Carried task s c.waker) :
    ((observe a s).foldl (·.on task) c).woken ∨ ((observe a s).foldl (·.on task) c).replaced ∨
      Carried task s' c.waker := by
  rcases hc with hc | hc | hc
  · exact Or.inl (on_woken (Or.inl hc))
  · exact Or.inr (Or.inl (on_replaced (Or.inl hc)))
  · rcases carried_step h hc with hc | hc
    · exact Or.inr (Or.inr hc)
    · exact Or.inl (on_woken (Or.inr hc))

theorem settled_live_step
    (hc : c.woken ∨ c.replaced ∨ Carried task s c.waker ∨ Live task s c.waker) :
    ((observe a s).foldl (·.on task) c).woken ∨ ((observe a s).foldl (·.on task) c).replaced ∨
      Carried task s' c.waker ∨ Live task s' c.waker := by
  rcases hc with hc | hc | hc | hc
  · exact (settled_step h (Or.inl hc)).imp_right (Or.imp_right Or.inl)
  · exact (settled_step h (Or.inr (Or.inl hc))).imp_right (Or.imp_right Or.inl)
  · exact (settled_step h (Or.inr (Or.inr hc))).imp_right (Or.imp_right Or.inl)
  · rcases live_step h hc with hc | hc | hc
    · exact Or.inr (Or.inr (Or.inr hc))
    · exact Or.inr (Or.inr (Or.inl hc))
    · exact Or.inr (Or.inl (on_replaced (Or.inr hc)))

/-- A taker comes to a filled or empty hand only by emptying the cell. -/
theorem emptied_of_new (hold : ¬ ∃ p, s.takers t = .reset p ∨ s.takers t = .wake p)
    (hnew : ∃ p, s'.takers t = .reset p ∨ s'.takers t = .wake p) : s'.cell = none := by
  obtain ⟨p, hp⟩ := hnew
  cases h with
  | took u hu => rfl
  | takeAndWake u hu | won u hu _ | lost u hu _ | woke u q hu | deferred u hu =>
    by_cases ht : t = u
    · subst ht
      simp at hp
    · exact absurd ⟨p, by simpa [Function.update_of_ne ht] using hp⟩ hold
  | reset u q hu =>
    by_cases ht : t = u
    · subst ht
      exact absurd ⟨q, Or.inl hu⟩ hold
    · exact absurd ⟨p, by simpa [Function.update_of_ne ht] using hp⟩ hold
  | _ => exact absurd ⟨p, hp⟩ hold

theorem callOk_step (hd : NoLateDefer s a) (hs : Sound task s hist) (hc : CallOk task s c) :
    CallOk task s' ((observe a s).foldl (·.on task) c) := by
  have hheld : ∃ o, HeldBy s o := hs.held.imp fun _ h => h.1
  have hset := settled_live_step h hc.settled
  refine ⟨by simpa only [on_waker] using hset, ?_, ?_⟩
  · intro t ht hp
    rw [on_waker]
    by_cases hold : ∃ p, s.takers t = .reset p ∨ s.takers t = .wake p
    · have hsince : c.since t = true := by
        rcases on_since ht with hsince | hb
        · exact hsince
        · obtain ⟨p, hold⟩ := hold
          rw [takeBegin_cases h hb] at hold
          rcases hold with hold | hold <;> cases hold
      exact settled_step h (hc.past t hsince hold)
    · rcases hset with hset | hset | hset | ⟨v, hv, _⟩
      · exact Or.inl hset
      · exact Or.inr (Or.inl hset)
      · exact Or.inr (Or.inr hset)
      · rw [emptied_of_new h hold hp] at hv
        cases hv
  · intro hserved
    rw [on_waker]
    have carry : ∀ {A B C D : Prop}, A ∨ B ∨ C → A ∨ B ∨ C ∨ D :=
      fun h => h.imp_right (Or.imp_right Or.inl)
    rcases on_served hserved with hold | ⟨t, hend, hsince⟩
    · rcases hc.served hold with hw | hr | hcar | ⟨hl, hcom⟩
      · exact carry (settled_step h (Or.inl hw))
      · exact carry (settled_step h (Or.inr (Or.inl hr)))
      · exact carry (settled_step h (Or.inr (Or.inr hcar)))
      · rcases live_step h hl with hl' | hcar | hst
        · rcases committed_step h hheld hl hcom with hcom' | hcar
          · exact Or.inr (Or.inr (Or.inr ⟨hl', hcom'⟩))
          · exact Or.inr (Or.inr (Or.inl hcar))
        · exact Or.inr (Or.inr (Or.inl hcar))
        · exact Or.inr (Or.inl (on_replaced (Or.inr hst)))
    · obtain ⟨rfl, hpc⟩ := takeEnd_cases hend
      have hsince : c.since t = true := by
        rcases hsince with hsince | hb
        · exact hsince
        · rw [takeBegin_cases h hb] at hpc
          rcases hpc with ⟨p, hpc⟩ | hpc <;> cases hpc
      rcases hpc with ⟨p, hpc⟩ | hpc
      · exact carry (settled_step h (hc.past t hsince ⟨p, Or.inr hpc⟩))
      · rcases hc.settled with hw | hr | hcar | hl
        · exact carry (settled_step h (Or.inl hw))
        · exact carry (settled_step h (Or.inr (Or.inl hr)))
        · exact carry (settled_step h (Or.inr (Or.inr hcar)))
        · -- the bit is set on a slot that is held: the holder will find it
          have hcom := committed_of_deferred hpc hs (hd t rfl hpc) hl
          cases h with
          | deferred u hu => exact Or.inr (Or.inr (Or.inr ⟨hl, hcom⟩))
          | won u hu _ | lost u hu _ | took u hu | reset u q hu | woke u q hu =>
            rw [hpc] at hu
            cases hu

/-- The calls on record after an action: those before it, and the call in
progress if the action returned it. -/
theorem mem_upd_returned (hc : c ∈ (upd task a s hist).returned) :
    ∃ c₀, c = (observe a s).foldl (·.on task) c₀ ∧
      (c₀ ∈ hist.returned ∨
        hist.current = some c₀ ∧ a = .reg ∧
          (s.reg = .release ∧ s.word = registering ∨
            (∃ p, s.reg = .wake p) ∨ ∃ w, s.reg = .wakeDirect w)) := by
  by_cases hend : Event.regEnd ∈ observe a s
  · cases h with
    | released hr hw =>
      simp only [upd, observe, hr, hw, if_true, List.foldl, Hist.record, List.mem_append,
        Option.mem_toList] at hc
      refine ⟨c, by simp [observe, hr, hw, Call.on], ?_⟩
      rcases hc with hc | hc
      · exact Or.inr ⟨hc, rfl, Or.inl ⟨hr, hw⟩⟩
      · exact Or.inl hc
    | regWoke p hr =>
      cases p with
      | none =>
        simp only [upd, observe, hr, List.foldl, Hist.record, List.mem_append,
          Option.mem_toList] at hc
        refine ⟨c, by simp [observe, hr, Call.on], ?_⟩
        rcases hc with hc | hc
        · exact Or.inr ⟨hc, rfl, Or.inr (Or.inl ⟨none, hr⟩)⟩
        · exact Or.inl hc
      | some w =>
        simp only [upd, observe, hr, List.foldl, Hist.record, List.mem_append, Option.mem_toList,
          Option.map_eq_some_iff, List.mem_map] at hc
        rcases hc with ⟨c₀, hc₀, rfl⟩ | ⟨c₀, hc₀, rfl⟩
        · exact ⟨c₀, by simp [observe, hr, Call.on],
            Or.inr ⟨hc₀, rfl, Or.inr (Or.inl ⟨some w, hr⟩)⟩⟩
        · exact ⟨c₀, by simp [observe, hr, Call.on], Or.inl hc₀⟩
    | wokeDirect w hr =>
      simp only [upd, observe, hr, List.foldl, Hist.record, List.mem_append, Option.mem_toList,
        Option.map_eq_some_iff, List.mem_map] at hc
      rcases hc with ⟨c₀, hc₀, rfl⟩ | ⟨c₀, hc₀, rfl⟩
      · exact ⟨c₀, by simp [observe, hr, Call.on],
          Or.inr ⟨hc₀, rfl, Or.inr (Or.inr ⟨w, hr⟩)⟩⟩
      · exact ⟨c₀, by simp [observe, hr, Call.on], Or.inl hc₀⟩
    | woke t p ht => cases p <;> simp [observe, ht] at hend
    | _ => simp [observe, *] at hend
  · rw [upd, record_returned hend, List.mem_map] at hc
    obtain ⟨c₀, hc₀, rfl⟩ := hc
    exact ⟨c₀, rfl, .inl hc₀⟩

end

/-- A `register` call that returns has left its waker in the cell or has woken
its task. -/
theorem callOk_returned {s' : Slot W} (hcell : s'.cell = s.cell) (hcur : CurrentOk task s (some c))
    (hr : s.reg = .release ∧ s.word = registering ∨
      (∃ p, s.reg = .wake p) ∨ ∃ w, s.reg = .wakeDirect w) :
    CallOk task s' ((observe .reg s).foldl (·.on task) c) := by
  obtain ⟨hrep, hserved, hsince, hpc⟩ := hcur
  rcases hr with ⟨hr, hw⟩ | ⟨p, hr⟩ | ⟨w, hr⟩
  · simp only [PcOk, hr] at hpc
    obtain ⟨v, hv, hvw⟩ := hpc
    have hc : (observe .reg s).foldl (·.on task) c = c := by simp [observe, hr, hw, Call.on]
    rw [hc]
    exact ⟨Or.inr (Or.inr (Or.inr ⟨v, hcell.trans hv, hvw⟩)), by simp [hsince], by simp [hserved]⟩
  · simp only [PcOk, hr] at hpc
    obtain ⟨w, rfl, hw⟩ := hpc
    have hwoken : ((observe .reg s).foldl (·.on task) c).woken = true :=
      on_woken (Or.inr ⟨w, by simp [observe, hr], hw⟩)
    exact ⟨Or.inl hwoken, fun _ _ _ => Or.inl hwoken, fun _ => Or.inl hwoken⟩
  · simp only [PcOk, hr] at hpc
    have hwoken : ((observe .reg s).foldl (·.on task) c).woken = true :=
      on_woken (Or.inr ⟨w, by simp [observe, hr], hpc⟩)
    exact ⟨Or.inl hwoken, fun _ _ _ => Or.inl hwoken, fun _ => Or.inl hwoken⟩

/-- What the registrar's part of the invariant says does not depend on the
takers, nor on whether the task was woken meanwhile. -/
theorem currentOk_congr {s' : Slot W} {o o' : Option (Call W)} (hreg : s'.reg = s.reg)
    (hcell : s'.cell = s.cell) (ho : o' = o ∨ ∃ w, o' = o.map (·.on task (.woke w)))
    (h : CurrentOk task s o) : CurrentOk task s' o' := by
  cases o with
  | none =>
    obtain rfl : o' = none := by
      rcases ho with rfl | ⟨w, rfl⟩ <;> rfl
    exact hreg.trans h
  | some c =>
    have hlive : Live task s' = Live task s := by
      funext w
      simp only [Live, hcell]
    rcases ho with rfl | ⟨w, rfl⟩
    · simpa only [CurrentOk, PcOk, hreg, hlive] using h
    · simpa only [CurrentOk, PcOk, Option.map_some, Call.on, hreg, hlive] using h

theorem current_step (hww : ∀ a b, willWake a b = true → task a = task b)
    (h : Trans willWake s a s') (hs : ∃ o, HeldBy s o) (hc : CurrentOk task s hist.current) :
    CurrentOk task s' (upd task a s hist).current := by
  cases h with
  | register w hr =>
    simp [upd, observe, Hist.record, CurrentOk, PcOk]
  | released hr hw => simp [upd, observe, hr, hw, Hist.record, CurrentOk]
  | regWoke p hr => cases p <;> simp [upd, observe, hr, Hist.record, CurrentOk]
  | wokeDirect w hr => simp [upd, observe, hr, Hist.record, CurrentOk]
  | acquired w hr _ | busy w hr _ | differs w hr | regReset p hr =>
    refine currentOk_next (by simp [upd, observe, hr]) (by simp [hr]) hc fun c hpc => ?_
    simpa only [PcOk, hr] using hpc
  | same w old hr hcell ho =>
    refine currentOk_next (by simp [upd, observe, hr]) (by simp [hr]) hc fun c hpc => ?_
    simp only [PcOk, hr] at hpc
    exact ⟨old, hcell, (hww old w ho).trans hpc⟩
  | stored w hr =>
    refine currentOk_next (by simp [upd, observe, hr, Hist.record]) (by simp [hr]) hc
      fun c hpc => ?_
    simp only [PcOk, hr] at hpc
    exact ⟨w, rfl, hpc⟩
  | notified hr hw =>
    refine currentOk_next (by simp [upd, observe, hr, hw]) (by simp [hr]) hc fun c hpc => ?_
    simp only [PcOk, hr] at hpc
    exact hpc
  | regTook hr =>
    refine currentOk_next (by simp [upd, observe, hr]) (by simp [hr]) hc fun c hpc => ?_
    simp only [PcOk, hr] at hpc
    exact hpc
  | takeAndWake t ht =>
    exact currentOk_congr rfl rfl (Or.inl rfl) hc
  | won t ht _ | lost t ht _ | reset t p ht =>
    exact currentOk_congr rfl rfl (Or.inl (by simp [upd, observe, ht])) hc
  | deferred t ht =>
    exact currentOk_congr rfl rfl (Or.inl (by simp [upd, observe, ht, Hist.record])) hc
  | woke t p ht =>
    cases p with
    | none => exact currentOk_congr rfl rfl (Or.inl (by simp [upd, observe, ht, Hist.record])) hc
    | some w =>
      exact currentOk_congr rfl rfl (Or.inr ⟨w, by simp [upd, observe, ht, Hist.record]⟩) hc
  | took t ht =>
    -- the registrar is outside, so it expects nothing of the cell
    have hout : ¬ s.reg.holds := by
      obtain ⟨o, ho⟩ := hs
      intro hr
      have h₁ := (ho.taker t).mp (by simp [ht, TakePc.holds])
      rw [h₁] at ho
      exact nomatch ho.reg.mp hr
    have hsame : (upd task (.taker t) s hist).current = hist.current := by simp [upd, observe, ht]
    rw [hsame]
    cases hcur : hist.current with
    | none =>
      rw [hcur] at hc
      exact hc
    | some c =>
      rw [hcur] at hc
      obtain ⟨hrep, hserved, hsince, hpc⟩ := hc
      refine ⟨hrep, hserved, hsince, ?_⟩
      cases hr : s.reg with
      | release | take => simp [hr, RegPc.holds] at hout
      | idle => simp [PcOk, hr] at hpc
      | _ => simpa only [PcOk, hr] using hpc

theorem sound_step (hww : ∀ a b, willWake a b = true → task a = task b) (h : Trans willWake s a s')
    (hd : NoLateDefer s a) (hs : Sound task s hist) : Sound task s' (upd task a s hist) := by
  have hheld : ∃ o, HeldBy s o := hs.held.imp fun _ h => h.1
  refine ⟨?_, failed_step h hheld hs.failed, emptied_step h hheld hs.emptied,
    current_step hww h hheld hs.current, fun c hc => ?_⟩
  · obtain ⟨o, ho, hn⟩ := hs.held
    obtain ⟨o', ho', hn'⟩ := ho.step h
    exact ⟨o', ho', hn' hd hn⟩
  · obtain ⟨c₀, rfl, hc₀ | ⟨hcur, rfl, hr⟩⟩ := mem_upd_returned h hc
    · exact callOk_step h hd hs (hs.returned c₀ hc₀)
    · have hcell : s'.cell = s.cell := by
        cases h with
        | stored w hr' | regTook hr' => simp [hr'] at hr
        | _ => rfl
      exact callOk_returned hcell (hcur ▸ hs.current) hr

end WakerSlotLemmas

/-! ## 3. The results -/

open WakerSlotLemmas

variable [DecidableEq τ] {p : Slot W × Hist W}

/-- The runs of the slot with the history of its `register` calls. -/
abbrev SlotRun (willWake : W → W → Bool) (task : W → τ) (ok : Slot W → Act W → Prop) :=
  Run (initHist (· = Slot.new W) (Hist.empty W)) (withHist (step willWake) (upd task))
    fun p a => ok p.1 a

theorem sound_of_run (hww : ∀ a b, willWake a b = true → task a = task b) {tr : List (Act W)}
    (h : SlotRun willWake task NoLateDefer tr p) : Sound task p.1 p.2 := by
  refine h.hist_invariant (I := Sound task) ?_
    (fun _ _ _ _ hs hd hst => sound_step hww (trans_of_step hst) hd hs)
  rintro s rfl
  exact sound_new

instance (s : Slot W) (a : Act W) : Decidable (NoLateDefer s a) :=
  match a with
  | .taker t =>
    match h : s.takers t with
    | .defer =>
      decidable_of_iff (s.word ≠ waiting) ⟨fun hw u hu _ => by cases hu; exact hw,
        fun hn => hn t rfl h⟩
    | .idle | .acquire | .take | .reset _ | .wake _ =>
      isTrue fun u hu hd => by cases hu; rw [h] at hd; cases hd
  | .register _ | .reg | .takeAndWake _ => isTrue nofun

theorem slotRun_of_exec (as : List (Act W))
    (h : exec (withHist (step willWake) (upd task)) as (Slot.new W, Hist.empty W) = some p) :
    SlotRun willWake task Free as.reverse p :=
  Run.of_exec as ⟨rfl, rfl⟩ h

theorem slotRun_of_exec_guarded (as : List (Act W))
    (h : exec (guarded (fun p a => NoLateDefer p.1 a) (withHist (step willWake) (upd task))) as
      (Slot.new W, Hist.empty W) = some p) : SlotRun willWake task NoLateDefer as.reverse p :=
  Run.of_exec_guarded as ⟨rfl, rfl⟩ h

/-- The cell is never accessed by two threads at once. In every run in which no
`fetch_or` finds the word at `WAITING`, the word is `WAITING` whenever no call
is in progress; and once a `take_and_wake` that began after a `register` call
returned has itself returned, the task of that call was woken since the call
began, or a call in progress is bound to wake it, or the waker was replaced by
that of another task. -/
theorem slot_sound_of_no_late_defer (willWake : W → W → Bool) (task : W → τ)
    (hww : ∀ a b, willWake a b = true → task a = task b) (tr : List (Act W))
    (p : Slot W × Hist W) :
    (SlotRun willWake task Free tr p → CellExclusive p.1) ∧
    (SlotRun willWake task NoLateDefer tr p →
      (Quiescent p.1 → p.1.word = waiting) ∧
      ∀ c ∈ p.2.returned, c.served = true → c.replaced = false →
        (c.woken = true ∨ Delivering task p.1 c.waker) ∧ (Quiescent p.1 → c.woken = true)) := by
  refine ⟨fun h => cell_exclusive h.withHist_fst, fun h => ?_⟩
  have hs := sound_of_run hww h
  refine ⟨fun hq => ?_, fun c hc hserved hrep => ?_⟩
  · obtain ⟨o, ho, hn⟩ := hs.held
    cases o with
    | nobody => exact hn rfl
    | registrar => simpa [hq.1, RegPc.holds] using ho.reg
    | taker t => simpa [hq.2 t, TakePc.holds] using ho.taker t
  · rcases (hs.returned c hc).served hserved with hw | hr | hd
    · exact ⟨Or.inl hw, fun _ => hw⟩
    · simp [hrep] at hr
    · exact ⟨Or.inr hd, fun hq => absurd hd (not_delivering_of_quiescent hq)⟩

/-- A registered waker and one `take_and_wake`. -/
theorem slot_sound_register_take : ∃ tr p,
    SlotRun (fun a b : Nat => a == b) id NoLateDefer tr p ∧ p.1.word = waiting ∧
    ∃ c ∈ p.2.returned, c.waker = 7 ∧ c.served = true ∧ c.woken = true := by
  obtain ⟨tr, p, hrun, hq, c, hc, hwaker, hserved, hrep⟩ : ∃ tr p,
      SlotRun (fun a b : Nat => a == b) id NoLateDefer tr p ∧ Quiescent p.1 ∧
      ∃ c ∈ p.2.returned, c.waker = 7 ∧ c.served = true ∧ c.replaced = false := by
    refine ⟨_, _, slotRun_of_exec_guarded [.register 7, .reg, .reg, .reg, .reg, .takeAndWake 1,
      .taker 1, .taker 1, .taker 1, .taker 1] rfl, ⟨rfl, fun t => ?_⟩, _, .head _, rfl, rfl, rfl⟩
    rcases t with _ | _ | t <;> rfl
  obtain ⟨hword, hcalls⟩ := (slot_sound_of_no_late_defer (fun a b : Nat => a == b) id
    (fun a b h => eq_of_beq h) tr p).2 hrun
  exact ⟨tr, p, hrun, hword hq, c, hc, hwaker, hserved, (hcalls c hc hserved hrep).2 hq⟩

/-- Three runs with a `register` call that has returned, a later `take_and_wake`
that has returned, and the registered task not woken. In the first one the
`fetch_or` of thread 1 comes after the registrar has given the slot back: no
call is in progress and the word is `WAKING`. In the second one thread 2 has
left the delivery to thread 1, which has not come to it yet. In the third one
the waker was replaced. -/
theorem late_defer_stuck :
    (∃ tr p, SlotRun (fun a b : Nat => a == b) id Free tr p ∧ Quiescent p.1 ∧
      p.1.word = waking ∧ ∃ c ∈ p.2.returned, c.served = true ∧ c.replaced = false ∧
        c.woken = false) ∧
    (∃ tr p, SlotRun (fun a b : Nat => a == b) id NoLateDefer tr p ∧
      ∃ c ∈ p.2.returned, c.served = true ∧ c.replaced = false ∧ c.woken = false) ∧
    ∃ tr p, SlotRun (fun a b : Nat => a == b) id NoLateDefer tr p ∧ Quiescent p.1 ∧
      ∃ c ∈ p.2.returned, c.served = true ∧ c.woken = false := by
  refine ⟨?_, ?_, ?_⟩
  · refine ⟨_, _, slotRun_of_exec [.register 7, .reg, .takeAndWake 1, .taker 1, .reg, .reg, .reg,
      .taker 1, .takeAndWake 2, .taker 2, .taker 2] rfl, ⟨rfl, fun t => ?_⟩, rfl, _, .head _, rfl,
      rfl, rfl⟩
    rcases t with _ | _ | _ | t <;> rfl
  · exact ⟨_, _, slotRun_of_exec_guarded [.register 7, .reg, .reg, .reg, .reg, .takeAndWake 1,
      .taker 1, .taker 1, .takeAndWake 2, .taker 2, .taker 2] rfl, _, .head _, rfl, rfl, rfl⟩
  · refine ⟨_, _, slotRun_of_exec_guarded [.register 7, .reg, .reg, .reg, .reg, .register 8, .reg,
      .reg, .reg, .reg, .takeAndWake 1, .taker 1, .taker 1, .taker 1, .taker 1] rfl,
      ⟨rfl, fun t => ?_⟩, _, .tail _ (.head _), rfl, rfl⟩
    rcases t with _ | _ | t <;> rfl

end Dtact.WakerSlot
