import Mathlib.Data.Fintype.Basic
import Dtact.Lib.Handover
import Dtact.Lib.Transition

/-!
# The op slots of an io worker

A `DtactIoFuture` takes a slot, submits a request that names it, and gives it back when the op is
completed. One that is dropped before marks the slot and leaves it to the worker.
`process_linux_completion` sets `completed` and then reads `dropped`; `drop` reads `completed` and
then sets `dropped`. Each operation on a field, on `free_slots` and on `cancel_queue` is one step.
-/

namespace Dtact.Io

open Transition Handover

structure WakerSlot (ω : Type) where
  wakerData : Option ω
  wakerVtable : Option ω
  wakerLock : Bool
  completed : Bool
  dropped : Bool

def WakerSlot.new {ω : Type} : WakerSlot ω := ⟨none, none, false, false, false⟩

variable {ω φ : Type}

/-- The critical sections of the waker lock. -/
inductive Section (ω : Type)
  | submit (waker : ω)
  | queueFull
  | update (waker : ω) (k : Nat)
  | ready (k : Nat)
  | drop (k : Nat)
deriving DecidableEq

/-- What is stored in the waker fields. -/
def Section.waker : Section ω → Option ω
  | .submit waker | .update waker _ => some waker
  | .queueFull | .ready _ | .drop _ => none

/-- Why a future gives its slot back. -/
inductive Why
  | queueFull
  | ready (k : Nat)
  | drop (k : Nat)
deriving DecidableEq

/-- Where a future is, named after the operation it performs next. `idle` holds `slot_idx`, with
the number of the request. -/
inductive Pc (ω : Type)
  | idle (slotIdx : Option (Nat × Nat))
  | popFree (waker : ω)
  | popAgain (waker : ω)
  | clearCompleted (waker : ω) (i : Nat)
  | clearDropped (waker : ω) (i : Nat)
  | lock (sec : Section ω) (i : Nat)
  | loadData (sec : Section ω) (i : Nat)
  | loadVtable (sec : Section ω) (i : Nat) (changed : Bool)
  | storeData (sec : Section ω) (i : Nat)
  | storeVtable (sec : Section ω) (i : Nat)
  | unlock (sec : Section ω) (i : Nat)
  | pushQueue (waker : ω) (i : Nat)
  | loadCompleted (waker : ω) (i k : Nat)
  | pushFree (why : Why) (i : Nat)
  | dropLoad (i k : Nat)
  | dropStore (i k : Nat)
  | dropCancel (i : Nat)
  | gone
deriving DecidableEq

/-- Where the worker is in `process_linux_completion`, for request `k` on slot `i`. -/
inductive WorkerPc
  | idle
  | lock (k i : Nat)
  | swapData (k i : Nat)
  | swapVtable (k i : Nat)
  | unlock (k i : Nat)
  | storeCompleted (k i : Nat)
  | loadDropped (k i : Nat)
  | pushFree (k i : Nat)
deriving DecidableEq

structure St (φ ω : Type) where
  slots : Nat → WakerSlot ω
  freeSlots : List Nat
  cancelQueue : List Nat
  /-- The slots of the requests that are submitted and not completed. -/
  inFlight : Nat → Option Nat
  issued : Nat
  future : φ → Pc ω
  worker : WorkerPc

/-- A worker with `ring_depth` slots. -/
def St.new (ringDepth : Nat) : St φ ω :=
  ⟨fun _ => .new, (List.range ringDepth).reverse, [], fun _ => none, 0, fun _ => .idle none, .idle⟩

/-- `poll` and `drop` begin a call, `run` is the next operation of a future. Its `choice` says
whether a wait slot is left when no slot is free, and whether the request queue takes the
request. `complete` is the completion of a request, `runWorker` the next operation of the
worker, `popCancel` what the worker does with a cancellation. -/
inductive Act (φ ω : Type)
  | poll (f : φ) (waker : ω)
  | drop (f : φ)
  | run (f : φ) (choice : Bool)
  | complete (k : Nat)
  | runWorker
  | popCancel

def Section.next (i : Nat) : Section ω → Pc ω
  | .submit waker => .pushQueue waker i
  | .queueFull => .pushFree .queueFull i
  | .update _ k => .idle (some (i, k))
  | .ready k => .pushFree (.ready k) i
  | .drop k => .dropLoad i k

/-- Only `update` looks at the fields before it stores. -/
def Section.body (i : Nat) : Section ω → Pc ω
  | .update waker k => .loadData (.update waker k) i
  | sec => .storeData sec i

def Why.next : Why → Pc ω
  | .queueFull | .ready _ => .idle none
  | .drop _ => .gone

def St.setSlot (s : St φ ω) (i : Nat) (slot : WakerSlot ω) : St φ ω :=
  { s with slots := Function.update s.slots i slot }

section

variable [DecidableEq φ] [DecidableEq ω]

def St.goto (s : St φ ω) (f : φ) (pc : Pc ω) : St φ ω :=
  { s with future := Function.update s.future f pc }

omit [DecidableEq ω] in
@[simp]
theorem St.goto_self (s : St φ ω) (f : φ) (pc : Pc ω) : (s.goto f pc).future f = pc :=
  Function.update_self _ _ _

omit [DecidableEq ω] in
theorem St.goto_of_ne (s : St φ ω) {f g : φ} (pc : Pc ω) (hne : g ≠ f) :
    (s.goto f pc).future g = s.future g :=
  Function.update_of_ne hne _ _

/-- The next operation of a future. A future that does not get the lock tries again. -/
def runFuture (f : φ) (choice : Bool) (s : St φ ω) : Pc ω → Option (St φ ω)
  | .idle _ | .gone => none
  | .popFree waker =>
    match s.freeSlots with
    | i :: freeSlots => some { s.goto f (.clearCompleted waker i) with freeSlots }
    | [] => if choice then some (s.goto f (.popAgain waker)) else some (s.goto f (.idle none))
  | .popAgain waker =>
    match s.freeSlots with
    | i :: freeSlots => some { s.goto f (.clearCompleted waker i) with freeSlots }
    | [] => some (s.goto f (.idle none))
  | .clearCompleted waker i =>
    some ((s.setSlot i { s.slots i with completed := false }).goto f (.clearDropped waker i))
  | .clearDropped waker i =>
    some ((s.setSlot i { s.slots i with dropped := false }).goto f (.lock (.submit waker) i))
  | .lock sec i =>
    if (s.slots i).wakerLock then none
    else some ((s.setSlot i { s.slots i with wakerLock := true }).goto f (sec.body i))
  | .loadData sec i => some (s.goto f (.loadVtable sec i ((s.slots i).wakerData ≠ sec.waker)))
  | .loadVtable sec i changed =>
    if changed ∨ (s.slots i).wakerVtable ≠ sec.waker then some (s.goto f (.storeData sec i))
    else some (s.goto f (.unlock sec i))
  | .storeData sec i =>
    some ((s.setSlot i { s.slots i with wakerData := sec.waker }).goto f (.storeVtable sec i))
  | .storeVtable sec i =>
    some ((s.setSlot i { s.slots i with wakerVtable := sec.waker }).goto f (.unlock sec i))
  | .unlock sec i =>
    some ((s.setSlot i { s.slots i with wakerLock := false }).goto f (sec.next i))
  | .pushQueue waker i =>
    if choice then
      some { s.goto f (.loadCompleted waker i s.issued) with
        inFlight := Function.update s.inFlight s.issued (some i)
        issued := s.issued + 1 }
    else some (s.goto f (.lock .queueFull i))
  | .loadCompleted waker i k =>
    if (s.slots i).completed then some (s.goto f (.lock (.ready k) i))
    else some (s.goto f (.lock (.update waker k) i))
  | .pushFree why i => some { s.goto f why.next with freeSlots := i :: s.freeSlots }
  | .dropLoad i k =>
    if (s.slots i).completed then some (s.goto f (.pushFree (.drop k) i))
    else some (s.goto f (.dropStore i k))
  | .dropStore i _ => some ((s.setSlot i { s.slots i with dropped := true }).goto f (.dropCancel i))
  | .dropCancel i => some { s.goto f .gone with cancelQueue := i :: s.cancelQueue }

end

def runWorker (s : St φ ω) : WorkerPc → Option (St φ ω)
  | .idle => none
  | .lock k i =>
    if (s.slots i).wakerLock then none
    else some { s.setSlot i { s.slots i with wakerLock := true } with worker := .swapData k i }
  | .swapData k i =>
    some { s.setSlot i { s.slots i with wakerData := none } with worker := .swapVtable k i }
  | .swapVtable k i =>
    some { s.setSlot i { s.slots i with wakerVtable := none } with worker := .unlock k i }
  | .unlock k i =>
    some { s.setSlot i { s.slots i with wakerLock := false } with worker := .storeCompleted k i }
  | .storeCompleted k i =>
    some { s.setSlot i { s.slots i with completed := true } with worker := .loadDropped k i }
  | .loadDropped k i =>
    if (s.slots i).dropped then some { s with worker := .pushFree k i }
    else some { s with worker := .idle }
  | .pushFree _ i => some { s with worker := .idle, freeSlots := i :: s.freeSlots }

section

variable [DecidableEq φ] [DecidableEq ω]

def step : Act φ ω → St φ ω → Option (St φ ω)
  | .poll f waker, s =>
    match s.future f with
    | .idle none => some (s.goto f (.popFree waker))
    | .idle (some (i, k)) => some (s.goto f (.loadCompleted waker i k))
    | _ => none
  | .drop f, s =>
    match s.future f with
    | .idle none => some (s.goto f .gone)
    | .idle (some (i, k)) => some (s.goto f (.lock (.drop k) i))
    | _ => none
  | .run f choice, s => runFuture f choice s (s.future f)
  | .complete k, s =>
    match s.worker, s.inFlight k with
    | .idle, some i =>
      some { s with worker := .lock k i, inFlight := Function.update s.inFlight k none }
    | _, _ => none
  | .runWorker, s => Io.runWorker s s.worker
  | .popCancel, s =>
    match s.worker, s.cancelQueue with
    | .idle, _ :: cancelQueue => some { s with cancelQueue }
    | _, _ => none

end

/-! ## Ownership -/

structure Hist (φ : Type) where
  /-- The futures that have submitted the requests. -/
  submitter : Nat → Option φ
  /-- The requests whose future has marked the slot as dropped. -/
  abandoned : List Nat
  /-- The requests whose completion has been processed. -/
  processed : List Nat
  /-- The requests whose slot has been pushed to `free_slots`, one entry for each push. -/
  released : List Nat

def upd [DecidableEq φ] (a : Act φ ω) (s : St φ ω) (h : Hist φ) : Hist φ :=
  match a with
  | .run f choice =>
    match s.future f with
    | .pushQueue _ _ =>
      if choice then { h with submitter := Function.update h.submitter s.issued (some f) } else h
    | .pushFree (.ready k) _ | .pushFree (.drop k) _ => { h with released := k :: h.released }
    | .dropStore _ k => { h with abandoned := k :: h.abandoned }
    | _ => h
  | .runWorker =>
    match s.worker with
    | .loadDropped k i =>
      if (s.slots i).dropped then h else { h with processed := k :: h.processed }
    | .pushFree k _ => { h with released := k :: h.released, processed := k :: h.processed }
    | _ => h
  | .poll _ _ | .drop _ | .complete _ | .popCancel => h

/-- What a future holds. It holds its slot until it has given it back or has marked it. -/
def Section.hold (i : Nat) : Section ω → Hold
  | .submit _ | .queueFull => .clean i
  | .update _ k | .drop k => .working i k
  | .ready k => .seen i k

def Why.hold (i : Nat) : Why → Hold
  | .queueFull => .clean i
  | .ready k | .drop k => .seen i k

def Pc.hold : Pc ω → Hold
  | .idle none | .popFree _ | .popAgain _ | .dropCancel _ | .gone => .none
  | .idle (some (i, k)) => .working i k
  | .clearCompleted _ i => .taken i
  | .clearDropped _ i => .half i
  | .lock sec i | .loadData sec i | .loadVtable sec i _ | .storeData sec i | .storeVtable sec i
  | .unlock sec i => sec.hold i
  | .pushQueue _ i => .clean i
  | .loadCompleted _ i k | .dropLoad i k => .working i k
  | .pushFree why i => why.hold i
  | .dropStore i k => .leaving i k

def WorkerPc.job : WorkerPc → Job
  | .idle => .idle
  | .lock k i | .swapData k i | .swapVtable k i | .unlock k i | .storeCompleted k i => .before k i
  | .loadDropped k i => .looking k i
  | .pushFree k i => .freeing k i

def St.Owns (s : St φ ω) (f : φ) (i : Nat) : Prop := (s.future f).hold.slot = some i

/-- The slot is owned by a submitted op whose future was dropped. -/
def Orphan (s : St φ ω) (h : Hist φ) (k i : Nat) : Prop :=
  k ∈ h.abandoned ∧ (s.inFlight k = some i ∨ s.worker.job.handles = some (k, i))

/-- The slot is free, once, or owned by one future, or owned by one op. -/
def OneOwner (s : St φ ω) (h : Hist φ) (i : Nat) : Prop :=
  (s.freeSlots.count i = 1 ∧ (∀ f, ¬ s.Owns f i) ∧ ∀ k, ¬ Orphan s h k i) ∨
    (s.freeSlots.count i = 0 ∧ (∃! f, s.Owns f i) ∧ ∀ k, ¬ Orphan s h k i) ∨
    (s.freeSlots.count i = 0 ∧ (∀ f, ¬ s.Owns f i) ∧ ∃! k, Orphan s h k i)

/-- A request that is processed and whose future is gone has given its slot back once. -/
def GivenBack (s : St φ ω) (h : Hist φ) : Prop :=
  ∀ k f, k ∈ h.processed → h.submitter k = some f → s.future f = .gone → h.released.count k = 1

/-! ## The condition -/

/-- `drop` is between its load of `completed` and its store to `dropped`. -/
def Pc.leaves (i : Nat) : Pc ω → Bool
  | .dropStore j _ => j = i
  | _ => false

/-- The worker is between its store to `completed` and its load of `dropped`. -/
def WorkerPc.looksAt (i : Nat) : WorkerPc → Bool
  | .loadDropped _ j => j = i
  | _ => false

def Pc.InTurn (s : St φ ω) : Pc ω → Prop
  | .dropStore i _ => s.worker.looksAt i = false
  | _ => True

def WorkerPc.InTurn (s : St φ ω) : WorkerPc → Prop
  | .storeCompleted _ i => ∀ f, (s.future f).leaves i = false
  | _ => True

/-- The worker completes a slot when no `drop` is between its two operations on it, and `drop`
marks a slot when the worker is not between its own two. -/
def InTurn (s : St φ ω) : Act φ ω → Prop
  | .run f _ => (s.future f).InTurn s
  | .runWorker => s.worker.InTurn s
  | .poll _ _ | .drop _ | .complete _ | .popCancel => True

instance [Fintype φ] (s : St φ ω) : (pc : WorkerPc) → Decidable (pc.InTurn s)
  | .storeCompleted _ _ => inferInstanceAs (Decidable (∀ _, _ = false))
  | .idle | .lock _ _ | .swapData _ _ | .swapVtable _ _ | .unlock _ _ | .loadDropped _ _
  | .pushFree _ _ => inferInstanceAs (Decidable True)

instance (s : St φ ω) : (pc : Pc ω) → Decidable (pc.InTurn s)
  | .dropStore _ _ => inferInstanceAs (Decidable (_ = false))
  | .idle _ | .popFree _ | .popAgain _ | .clearCompleted _ _ | .clearDropped _ _ | .lock _ _
  | .loadData _ _ | .loadVtable _ _ _ | .storeData _ _ | .storeVtable _ _ | .unlock _ _
  | .pushQueue _ _ | .loadCompleted _ _ _ | .pushFree _ _ | .dropLoad _ _ | .dropCancel _
  | .gone => inferInstanceAs (Decidable True)

instance [Fintype φ] (s : St φ ω) : (a : Act φ ω) → Decidable (InTurn s a)
  | .run f _ => inferInstanceAs (Decidable ((s.future f).InTurn s))
  | .runWorker => inferInstanceAs (Decidable (s.worker.InTurn s))
  | .poll _ _ | .drop _ | .complete _ | .popCancel => inferInstanceAs (Decidable True)

section

variable [DecidableEq φ] [DecidableEq ω]

abbrev SlotsRun (ringDepth : Nat) (ok : St φ ω → Act φ ω → Prop) :
    List (Act φ ω) → St φ ω × Hist φ → Prop :=
  Run (initHist (· = St.new ringDepth) ⟨fun _ => none, [], [], []⟩) (withHist step upd)
    fun p a => ok p.1 a

end

/-! ## Refinement -/

def view (s : St φ ω) (h : Hist φ) : Handover.St φ where
  free := s.freeSlots
  completed := WakerSlot.completed ∘ s.slots
  dropped := WakerSlot.dropped ∘ s.slots
  inFlight := s.inFlight
  issued := s.issued
  hold := Pc.hold ∘ s.future
  job := s.worker.job
  submitter := h.submitter
  abandoned := h.abandoned
  processed := h.processed
  released := h.released

section

variable {s s' : St φ ω} {h : Hist φ} {f : φ} {i : Nat}

/-- Operations on the waker of a slot are not seen. -/
theorem view_setSlot {slot : WakerSlot ω} (hcompleted : slot.completed = (s.slots i).completed)
    (hdropped : slot.dropped = (s.slots i).dropped) : view (s.setSlot i slot) h = view s h := by
  simp only [view, St.setSlot, Function.comp_update, hcompleted, hdropped]
  rw [show (s.slots i).completed = (WakerSlot.completed ∘ s.slots) i from rfl,
    show (s.slots i).dropped = (WakerSlot.dropped ∘ s.slots) i from rfl,
    Function.update_eq_self, Function.update_eq_self]

theorem view_setCompleted (completed : Bool) :
    view (s.setSlot i { s.slots i with completed }) h =
      { view s h with completed := Function.update (view s h).completed i completed } := by
  simp only [view, St.setSlot, Function.comp_update]
  rw [show (s.slots i).dropped = (WakerSlot.dropped ∘ s.slots) i from rfl, Function.update_eq_self]

theorem view_setDropped (dropped : Bool) :
    view (s.setSlot i { s.slots i with dropped }) h =
      { view s h with dropped := Function.update (view s h).dropped i dropped } := by
  simp only [view, St.setSlot, Function.comp_update]
  rw [show (s.slots i).completed = (WakerSlot.completed ∘ s.slots) i from rfl,
    Function.update_eq_self]

theorem Section.hold_body (sec : Section ω) : (sec.body i).hold = sec.hold i := by
  cases sec <;> rfl

theorem Section.hold_next (sec : Section ω) : (sec.next i).hold = sec.hold i := by
  cases sec <;> rfl

theorem Why.hold_next (why : Why) : (why.next : Pc ω).hold = .none := by
  cases why <;> rfl

theorem WorkerPc.looksAt_of_job {pc : WorkerPc} {k : Nat} (hjob : pc.job = .looking k i) :
    pc.looksAt i = true := by
  cases pc <;> simp_all [WorkerPc.job, WorkerPc.looksAt]

theorem Pc.leaves_of_hold {pc : Pc ω} {k : Nat} (hhold : pc.hold = .leaving i k) :
    pc.leaves i = true := by
  cases pc with
  | idle slotIdx => cases slotIdx <;> cases hhold
  | dropStore j k' =>
    obtain ⟨rfl, rfl⟩ := Hold.leaving.inj hhold
    exact decide_eq_true rfl
  | lock sec | loadData sec | loadVtable sec | storeData sec | storeVtable sec | unlock sec =>
    cases sec <;> cases hhold
  | pushFree why => cases why <;> cases hhold
  | popFree | popAgain | clearCompleted | clearDropped | pushQueue | loadCompleted | dropLoad
  | dropCancel | gone => cases hhold

variable [DecidableEq φ]

theorem view_goto (s : St φ ω) (h : Hist φ) (f : φ) (pc : Pc ω) :
    view (s.goto f pc) h = (view s h).set f pc.hold := by
  simp only [view, St.goto, Handover.St.set, Function.comp_update]

theorem view_goto_same {pc : Pc ω} (hhold : pc.hold = (s.future f).hold) :
    view (s.goto f pc) h = view s h := by
  rw [view_goto, hhold, Handover.St.set]
  simp only [view]
  rw [show (s.future f).hold = (Pc.hold ∘ s.future) f from rfl, Function.update_eq_self]

theorem view_waker {slot : WakerSlot ω} {pc : Pc ω}
    (hcompleted : slot.completed = (s.slots i).completed)
    (hdropped : slot.dropped = (s.slots i).dropped) (hhold : pc.hold = (s.future f).hold) :
    view ((s.setSlot i slot).goto f pc) h = view s h := by
  have hhold' : pc.hold = ((s.setSlot i slot).future f).hold := hhold
  rw [view_goto_same hhold', view_setSlot hcompleted hdropped]

theorem runWorker_refines {pc : WorkerPc} (hpc : s.worker = pc) (hok : pc.InTurn s)
    (hst : runWorker s pc = some s') : Step (view s h) (view s' (upd .runWorker s h)) := by
  have hjob : (view s h).job = pc.job := congrArg WorkerPc.job hpc
  have hsame {slot : WakerSlot ω} {i : Nat} {pc' : WorkerPc} (hbefore : pc'.job = pc.job)
      (hcompleted : slot.completed = (s.slots i).completed)
      (hdropped : slot.dropped = (s.slots i).dropped) :
      Step (view s h) (view { s.setSlot i slot with worker := pc' } h) := by
    have heq : { view (s.setSlot i slot) h with job := pc'.job } = view s h := by
      rw [view_setSlot hcompleted hdropped, hbefore, ← hjob]
    exact heq ▸ Step.stay
  have hto {s₁ : St φ ω} {h₁ : Hist φ} {v : Handover.St φ} (hstep : Step (view s h) v)
      (heq : view s₁ h₁ = v) : Step (view s h) (view s₁ h₁) := heq ▸ hstep
  simp only [upd, hpc]
  cases pc with
  | idle => cases hst
  | lock k j =>
    simp only [runWorker] at hst
    split_ifs at hst
    cases hst
    exact hsame rfl rfl rfl
  | swapData k j | swapVtable k j | unlock k j =>
    cases hst
    exact hsame rfl rfl rfl
  | storeCompleted k j =>
    cases hst
    refine hto (Step.publish hjob fun f k' hhold => ?_) ?_
    · exact absurd (Pc.leaves_of_hold hhold) (Bool.eq_false_iff.mp (hok f))
    · exact congrArg (fun v => { v with job := .looking k j }) (view_setCompleted true)
  | loadDropped k j =>
    simp only [runWorker] at hst
    split_ifs at hst with hdropped
    · cases hst
      simp only [if_pos hdropped]
      exact hto (Step.claim hjob hdropped) rfl
    · cases hst
      simp only [if_neg hdropped]
      exact hto (Step.keep hjob (Bool.eq_false_of_not_eq_true hdropped)) rfl
  | pushFree k j =>
    cases hst
    exact hto (Step.release hjob) rfl

variable [DecidableEq ω]

theorem runFuture_refines {choice : Bool} {pc : Pc ω} (hpc : s.future f = pc)
    (hok : pc.InTurn s) (hst : runFuture f choice s pc = some s') :
    Step (view s h) (view s' (upd (.run f choice) s h)) := by
  have hhold : (view s h).hold f = pc.hold := congrArg Pc.hold hpc
  have hsame {x : Hold} (hx : x = pc.hold) : x = (s.future f).hold := hx.trans (hpc ▸ rfl)
  have hstay {s₁ : St φ ω} (heq : view s₁ h = view s h) : Step (view s h) (view s₁ h) :=
    heq ▸ Step.stay
  have hto {s₁ : St φ ω} {h₁ : Hist φ} {v : Handover.St φ} (hstep : Step (view s h) v)
      (heq : view s₁ h₁ = v) : Step (view s h) (view s₁ h₁) := heq ▸ hstep
  simp only [upd, hpc]
  cases pc with
  | idle | gone => cases hst
  | popFree waker =>
    simp only [runFuture] at hst
    split at hst
    · next j rest hfree =>
      cases hst
      refine hto (Step.take hhold hfree) ?_
      rw [← show (Pc.clearCompleted waker j).hold = .taken j from rfl, ← view_goto]
      rfl
    · split_ifs at hst <;> cases hst <;> exact hstay (view_goto_same (hsame rfl))
  | popAgain waker =>
    simp only [runFuture] at hst
    split at hst
    · next j rest hfree =>
      cases hst
      refine hto (Step.take hhold hfree) ?_
      rw [← show (Pc.clearCompleted waker j).hold = .taken j from rfl, ← view_goto]
      rfl
    · cases hst
      exact hstay (view_goto_same (hsame rfl))
  | clearCompleted waker j =>
    cases hst
    refine hto (Step.clearCompleted hhold) ?_
    rw [view_goto, view_setCompleted]
    rfl
  | clearDropped waker j =>
    cases hst
    refine hto (Step.clearDropped hhold) ?_
    rw [view_goto, view_setDropped]
    rfl
  | lock sec j =>
    simp only [runFuture] at hst
    split_ifs at hst
    cases hst
    exact hstay (view_waker rfl rfl (hsame sec.hold_body))
  | loadData sec j =>
    cases hst
    exact hstay (view_goto_same (hsame rfl))
  | loadVtable sec j changed =>
    simp only [runFuture] at hst
    split_ifs at hst <;> cases hst <;> exact hstay (view_goto_same (hsame rfl))
  | storeData sec j | storeVtable sec j =>
    cases hst
    exact hstay (view_waker rfl rfl (hsame rfl))
  | unlock sec j =>
    cases hst
    exact hstay (view_waker rfl rfl (hsame sec.hold_next))
  | pushQueue waker j =>
    simp only [runFuture] at hst
    split_ifs at hst with hchoice
    · cases hst
      rw [if_pos hchoice]
      refine hto (Step.submit hhold) ?_
      simp only [view, St.goto, Handover.St.set, Function.comp_update, Pc.hold]
    · cases hst
      rw [if_neg hchoice]
      exact hstay (view_goto_same (hsame rfl))
  | loadCompleted waker j k =>
    simp only [runFuture] at hst
    split_ifs at hst with hcompleted
    · cases hst
      exact hto (Step.see hhold hcompleted) (view_goto s h f _)
    · cases hst
      exact hstay (view_goto_same (hsame rfl))
  | pushFree why j =>
    cases hst
    cases why with
    | queueFull =>
      refine hto (Step.giveBack hhold) ?_
      simp only [view, St.goto, Handover.St.set, Function.comp_update, Why.hold_next]
    | ready k | drop k =>
      refine hto (Step.finish hhold) ?_
      simp only [view, St.goto, Handover.St.set, Function.comp_update, Why.hold_next]
  | dropLoad j k =>
    simp only [runFuture] at hst
    split_ifs at hst with hcompleted
    · cases hst
      exact hto (Step.see hhold hcompleted) (view_goto s h f _)
    · cases hst
      exact hto (Step.leave hhold (Bool.eq_false_of_not_eq_true hcompleted)) (view_goto s h f _)
  | dropStore j k =>
    cases hst
    refine hto (Step.abandon hhold fun k' hjob => ?_) ?_
    · exact absurd (WorkerPc.looksAt_of_job hjob) (Bool.eq_false_iff.mp hok)
    · rw [view_goto, view_setDropped]
      rfl
  | dropCancel j =>
    cases hst
    have hgone : view (s.goto f .gone) h = view s h := view_goto_same (hsame rfl)
    exact hstay hgone

theorem step_refines {a : Act φ ω} (hok : InTurn s a) (hst : step a s = some s') :
    Step (view s h) (view s' (upd a s h)) := by
  have hstay {f : φ} {pc : Pc ω} (heq : pc.hold = (s.future f).hold) :
      Step (view s h) (view (s.goto f pc) h) := view_goto_same heq ▸ Step.stay
  cases a with
  | poll f waker | drop f =>
    simp only [step] at hst
    split at hst
    · next hpc =>
      cases hst
      exact hstay (hpc ▸ rfl)
    · next hpc =>
      cases hst
      exact hstay (hpc ▸ rfl)
    · cases hst
  | run f choice => exact runFuture_refines rfl hok hst
  | complete k =>
    simp only [step] at hst
    split at hst
    · next i hworker hk =>
      cases hst
      exact Step.start (s := view s h) (congrArg WorkerPc.job hworker) hk
    · cases hst
  | runWorker => exact runWorker_refines rfl hok hst
  | popCancel =>
    simp only [step] at hst
    split at hst
    · cases hst
      exact Step.stay
    · cases hst

end

/-! ## Result -/

theorem inv_new (ringDepth : Nat) :
    Handover.Inv (fun i => if i ∈ (List.range ringDepth).reverse then .free else .outside)
      (view (St.new ringDepth : St φ ω) ⟨fun _ => none, [], [], []⟩) :=
  inv_init (s := view (St.new ringDepth : St φ ω) ⟨fun _ => none, [], [], []⟩)
    (List.nodup_reverse.mpr List.nodup_range) (fun _ => rfl) rfl (fun _ => rfl) rfl ⟨rfl, rfl, rfl⟩

/-- In a run in which `drop` and the completion of a slot do not pass each other, every slot has
one owner, and a slot whose request is processed and whose future is gone was given back once. -/
theorem slots_owned [DecidableEq φ] [DecidableEq ω] (ringDepth : Nat) (tr : List (Act φ ω))
    (s : St φ ω) (h : Hist φ) (hrun : SlotsRun ringDepth InTurn tr (s, h)) :
    (∀ i < ringDepth, OneOwner s h i) ∧ GivenBack s h := by
  obtain ⟨owner, hinv, hinside⟩ := hrun.hist_invariant
    (I := fun s h => ∃ owner, Handover.Inv owner (view s h) ∧ ∀ i < ringDepth, owner i ≠ .outside)
    (by
      rintro s rfl
      refine ⟨_, inv_new ringDepth, fun i hi => ?_⟩
      rw [if_pos (List.mem_reverse.mpr (List.mem_range.mpr hi))]
      simp)
    (by
      rintro s h a s' ⟨owner, hinv, hinside⟩ hok hst
      obtain ⟨owner', hinv', hkeep⟩ := hinv.step (step_refines hok hst)
      exact ⟨owner', hinv', fun i hi => hkeep i (hinside i hi)⟩)
  refine ⟨fun i hi => hinv.one_owner (hinside i hi), fun k f hk hf hgone => ?_⟩
  refine hinv.released_once hk hf fun hop => ?_
  have hnone : (view s h).hold f = .none := congrArg Pc.hold hgone
  rw [hnone] at hop
  cases hop

/-! Runs of two futures and one slot. -/

/-- A future submits its request and waits. -/
def submits (f : Fin 2) : List (Act (Fin 2) Unit) := .poll f () :: .replicate 13 (.run f true)

/-- A future finds its request completed. -/
def finishes (f : Fin 2) : List (Act (Fin 2) Unit) := .poll f () :: .replicate 6 (.run f true)

/-- The first future is dropped before its request is completed, the second one waits. -/
def dropAndFinish : List (Act (Fin 2) Unit) :=
  [submits 0, .drop 0 :: .replicate 7 (.run 0 true), .complete 0 :: .replicate 7 .runWorker,
    submits 1, .complete 1 :: .replicate 6 .runWorker, finishes 1, [.drop 1]].flatten

theorem slots_owned_dropAndFinish :
    ∃ tr, ∃ s : St (Fin 2) Unit, ∃ h, SlotsRun 1 InTurn tr (s, h) ∧ s.freeSlots = [0] ∧
      h.released = [1, 0] ∧ (∀ f, s.future f = .gone) ∧
      (∀ i < 1, OneOwner s h i) ∧ GivenBack s h := by
  obtain ⟨⟨s, h⟩, hrun, heq⟩ : ∃ p, SlotsRun 1 InTurn dropAndFinish.reverse p ∧
      p.1.freeSlots = [0] ∧ p.2.released = [1, 0] ∧ (∀ f, p.1.future f = .gone) :=
    Run.exists_of_guarded dropAndFinish (St.new 1, ⟨fun _ => none, [], [], []⟩) ⟨rfl, rfl⟩
      (by decide +kernel)
  exact ⟨_, s, h, hrun, heq.1, heq.2.1, heq.2.2, slots_owned 1 _ s h hrun⟩

/-- `drop` finds the request not completed, the worker completes it and finds the slot not
marked, and then `drop` marks the slot. -/
def passEachOther : List (Act (Fin 2) Unit) :=
  [submits 0, .drop 0 :: .replicate 5 (.run 0 true), .complete 0 :: .replicate 6 .runWorker,
    .replicate 2 (.run 0 true)].flatten

/-- The worker has set `completed` and not yet read `dropped`. The first future finds its
request completed and gives the slot back; the second one takes it, submits a request and is
dropped. -/
def readsNextMark : List (Act (Fin 2) Unit) :=
  [submits 0, .complete 0 :: .replicate 5 .runWorker, finishes 0, submits 1,
    .drop 1 :: .replicate 7 (.run 1 true), .replicate 2 .runWorker].flatten

/-- In the first run nobody owns the slot at the end and it is not free; in the second one it is
free and owned by a request. -/
theorem slot_leaked_and_owned_twice :
    (∃ tr, ∃ s : St (Fin 2) Unit, ∃ h, SlotsRun 1 Free tr (s, h) ∧ ¬ OneOwner s h 0 ∧
        ¬ GivenBack s h) ∧
      ∃ tr, ∃ s : St (Fin 2) Unit, ∃ h, SlotsRun 1 Free tr (s, h) ∧ ¬ OneOwner s h 0 := by
  constructor
  · obtain ⟨⟨s, h⟩, hrun, hfree, hhold, hflight, hworker, hgone, habandoned, hreleased, hprocessed,
        hsubmitter⟩ : ∃ p, SlotsRun 1 Free passEachOther.reverse p ∧ p.1.freeSlots = [] ∧
        (∀ f, (p.1.future f).hold = .none) ∧ p.1.inFlight 0 = none ∧ p.1.worker = .idle ∧
        p.1.future 0 = .gone ∧ p.2.abandoned = [0] ∧ p.2.released = [] ∧ p.2.processed = [0] ∧
        p.2.submitter 0 = some 0 :=
      Run.exists_of_exec passEachOther (St.new 1, ⟨fun _ => none, [], [], []⟩) ⟨rfl, rfl⟩
        (by decide +kernel)
    refine ⟨_, s, h, hrun, ?_, fun hback => ?_⟩
    · rintro (⟨hcount, -⟩ | ⟨-, ⟨f, hf, -⟩, -⟩ | ⟨-, -, k, ⟨hk, hun⟩, -⟩)
      · rw [hfree] at hcount
        cases hcount
      · have hslot : (s.future f).hold.slot = some 0 := hf
        rw [hhold f] at hslot
        cases hslot
      · rw [habandoned, List.mem_singleton] at hk
        subst hk
        rw [hflight, hworker] at hun
        rcases hun with hun | hun <;> cases hun
    · have hcount := hback 0 0 (hprocessed ▸ List.mem_singleton_self 0) hsubmitter hgone
      rw [hreleased] at hcount
      cases hcount
  · obtain ⟨⟨s, h⟩, hrun, hfree, hflight, habandoned⟩ : ∃ p, SlotsRun 1 Free
        readsNextMark.reverse p ∧ p.1.freeSlots = [0] ∧ p.1.inFlight 1 = some 0 ∧
        p.2.abandoned = [1] :=
      Run.exists_of_exec readsNextMark (St.new 1, ⟨fun _ => none, [], [], []⟩) ⟨rfl, rfl⟩
        (by decide +kernel)
    refine ⟨_, s, h, hrun, ?_⟩
    rintro (⟨-, -, hnot⟩ | ⟨hcount, -⟩ | ⟨hcount, -⟩)
    · exact hnot 1 ⟨habandoned ▸ List.mem_singleton_self 1, .inl hflight⟩
    · rw [hfree] at hcount
      cases hcount
    · rw [hfree] at hcount
      cases hcount

end Dtact.Io
