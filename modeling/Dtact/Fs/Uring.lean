import Mathlib.Data.Multiset.MapFold
import Dtact.Util.WakerSlot

/-!
# The state of a file operation

An `IoOp` keeps its `OpState` in a slot of the pool or, when the pool is exhausted, in a box. The
worker stores the result at the address in the entry and calls `take_and_wake`. `drop` gives a slot
back if the result is there and leaks it otherwise; a box is freed in either case. Boxes are
numbered, and no number is used twice.

Results:
1. `opState_alive`: when a box is freed only after the worker's last access, the worker touches live
   memory only, and a slot only while it is assigned to the operation of the entry.
2. `box_freed_in_flight`: two runs in which the worker is about to touch a freed box.
-/

namespace Dtact.Fs.Uring

open Transition

variable {ι ω : Type}

inductive Addr
  | pooled (i : Nat)
  | box (n : Nat)
deriving DecidableEq

/-- `result` is `none` for `PENDING`. -/
structure OpState (ω : Type) where
  result : Option Int
  waker : WakerSlot.Slot ω

def OpState.fresh : OpState ω := ⟨none, .new ω⟩

/-- A submission: the operation that it belongs to and its `user_data`. -/
structure Entry (ι : Type) where
  op : ι
  addr : Addr
deriving DecidableEq

/-- Where an operation is, named after what it does next. `load`, `register` and `reload` are in
`poll`, `dropLoad` and `pushFree` in `drop`. -/
inductive Pc (ω : Type)
  | fresh
  | storePending (i : Nat)
  | push (addr : Addr)
  | idle (addr : Addr)
  | load (addr : Addr) (waker : ω)
  | register (addr : Addr)
  | reload (addr : Addr)
  | dropLoad (i : Nat)
  | pushFree (i : Nat)
  | gone

/-- What the worker does next: `drain_all`, `sq.push`, `submit_and_wait`, and for each completion
the store of its result and `take_and_wake`. -/
inductive WorkerPc (ι : Type)
  | top
  | submit (batch : List (Entry ι))
  | wait
  | reap
  | store (entry : Entry ι) (res : Int)
  | wake (entry : Entry ι)

structure St (ι ω : Type) where
  mem : Addr → OpState ω
  free : List Nat
  /-- The boxes that are allocated and not freed. -/
  boxes : Nat → Bool
  allocated : Nat
  pending : List (Entry ι)
  inFlight : List (Entry ι)
  cq : List (Entry ι × Int)
  op : ι → Pc ω
  worker : WorkerPc ι

/-- A pool of `depth` slots. -/
def St.new (depth : Nat) : St ι ω :=
  ⟨fun _ => .fresh, (List.range depth).reverse, fun _ => false, 0, [], [], [], fun _ => .fresh,
    .top⟩

/-- `submit`, `poll` and `drop` begin a call, `run` is the next step of an operation. `worker` is
the next step of the worker: `ok` says whether the ring takes an entry and whether
`submit_and_wait` succeeds. `complete` is a completion. -/
inductive Act (ι ω : Type)
  | submit (o : ι)
  | poll (o : ι) (waker : ω)
  | drop (o : ι)
  | run (o : ι)
  | worker (ok : Bool)
  | complete (entry : Entry ι) (res : Int)

section

variable [DecidableEq ι]

def St.goto (s : St ι ω) (o : ι) (pc : Pc ω) : St ι ω :=
  { s with op := Function.update s.op o pc }

def St.setResult (s : St ι ω) (addr : Addr) (result : Option Int) : St ι ω :=
  { s with mem := Function.update s.mem addr { s.mem addr with result } }

def St.setWaker (s : St ι ω) (addr : Addr) (waker : WakerSlot.Slot ω) : St ι ω :=
  { s with mem := Function.update s.mem addr { s.mem addr with waker } }

/-- The next step of an operation. `willWake` is `Waker::will_wake`. -/
def runOp (willWake : ω → ω → Bool) (o : ι) (s : St ι ω) : Pc ω → Option (St ι ω)
  | .fresh | .idle _ | .gone => none
  | .storePending i => some ((s.setResult (.pooled i) none).goto o (.push (.pooled i)))
  | .push addr => some { s.goto o (.idle addr) with pending := ⟨o, addr⟩ :: s.pending }
  | .load addr waker =>
    if (s.mem addr).result.isSome then some (s.goto o (.idle addr))
    else some ((s.setWaker addr { (s.mem addr).waker with reg := .acquire waker }).goto o
      (.register addr))
  | .register addr =>
    (WakerSlot.regStep willWake (s.mem addr).waker).map fun slot =>
      (s.setWaker addr slot).goto o
        (if slot.reg matches .idle then .reload addr else .register addr)
  | .reload addr => some (s.goto o (.idle addr))
  | .dropLoad i =>
    if (s.mem (.pooled i)).result.isSome then some (s.goto o (.pushFree i))
    else some (s.goto o .gone)
  | .pushFree i => some { s.goto o .gone with free := i :: s.free }

/-- The worker is taker 0 of every waker slot. -/
def runWorker (ok : Bool) (s : St ι ω) : WorkerPc ι → Option (St ι ω)
  | .top =>
    match s.pending with
    | [] => some s
    | batch => some { s with worker := .submit batch, pending := [] }
  | .submit (entry :: batch) =>
    if ok then some { s with worker := .submit batch, inFlight := entry :: s.inFlight }
    else some { s with worker := .submit batch }
  | .submit [] => some { s with worker := .wait }
  | .wait => some { s with worker := if ok then .reap else .top }
  | .reap =>
    match s.cq with
    | (entry, res) :: cq => some { s with worker := .store entry res, cq }
    | [] => some { s with worker := .top }
  | .store entry res =>
    let slot := (s.mem entry.addr).waker
    some { (s.setResult entry.addr (some res)).setWaker entry.addr
        { slot with takers := Function.update slot.takers 0 .acquire } with
      worker := .wake entry }
  | .wake entry =>
    (WakerSlot.takerStep 0 (s.mem entry.addr).waker).map fun slot =>
      { s.setWaker entry.addr slot with
        worker := if slot.takers 0 matches .idle then .reap else .wake entry }

def step (willWake : ω → ω → Bool) : Act ι ω → St ι ω → Option (St ι ω)
  | .submit o, s =>
    match s.op o, s.free with
    | .fresh, i :: free => some { s.goto o (.storePending i) with free }
    | .fresh, [] =>
      some { s.goto o (.push (.box s.allocated)) with
        mem := Function.update s.mem (.box s.allocated) .fresh
        boxes := Function.update s.boxes s.allocated true
        allocated := s.allocated + 1 }
    | _, _ => none
  | .poll o waker, s =>
    match s.op o with
    | .idle addr => some (s.goto o (.load addr waker))
    | _ => none
  | .drop o, s =>
    match s.op o with
    | .idle (.pooled i) => some (s.goto o (.dropLoad i))
    | .idle (.box n) =>
      some { s.goto o .gone with boxes := Function.update s.boxes n false }
    | _ => none
  | .run o, s => runOp willWake o s (s.op o)
  | .worker ok, s => runWorker ok s s.worker
  | .complete entry res, s =>
    if entry ∈ s.inFlight then
      some { s with inFlight := s.inFlight.erase entry, cq := s.cq ++ [(entry, res)] }
    else none

end

/-! ## The property -/

/-- The operations that the slots of the pool are assigned to: from the pop until the push. -/
def upd [DecidableEq ι] (a : Act ι ω) (s : St ι ω) (assigned : Nat → Option ι) : Nat → Option ι :=
  match a with
  | .submit o =>
    match s.op o, s.free with
    | .fresh, i :: _ => Function.update assigned i (some o)
    | _, _ => assigned
  | .run o =>
    match s.op o with
    | .pushFree i => Function.update assigned i none
    | _ => assigned
  | .poll _ _ | .drop _ | .worker _ | .complete _ _ => assigned

/-- The next step of `take_and_wake` touches the waker slot. `Waker::wake` does not. -/
def touching : WakerSlot.TakePc ω → Bool
  | .acquire | .take | .reset _ | .defer => true
  | .idle | .wake _ => false

/-- The `OpState` that the next step of the worker touches. -/
def St.touches (s : St ι ω) : Option Addr :=
  match s.worker with
  | .store entry _ => some entry.addr
  | .wake entry =>
    if touching ((s.mem entry.addr).waker.takers 0) then some entry.addr else none
  | _ => none

def Live (boxes : Nat → Bool) : Addr → Prop
  | .pooled _ => True
  | .box n => boxes n = true

structure Alive (s : St ι ω) (assigned : Nat → Option ι) : Prop where
  touches : ∀ addr, s.touches = some addr → Live s.boxes addr
  store : ∀ entry res i, s.worker = .store entry res → entry.addr = .pooled i →
    assigned i = some entry.op

/-! ## The condition -/

def WorkerPc.batch : WorkerPc ι → List (Entry ι)
  | .submit batch => batch
  | _ => []

/-- No entry with this address is on its way to the worker, and the worker does not touch it. -/
def St.Settled (s : St ι ω) (addr : Addr) : Prop :=
  (∀ entry ∈ s.pending ++ s.worker.batch ++ s.inFlight ++ s.cq.map Prod.fst, entry.addr ≠ addr) ∧
    s.touches ≠ some addr

def Pc.Settled (s : St ι ω) : Pc ω → Prop
  | .idle (.box n) => s.Settled (.box n)
  | _ => True

/-- A box is freed after the worker's last access. -/
def Settled (s : St ι ω) : Act ι ω → Prop
  | .drop o => (s.op o).Settled s
  | .submit _ | .poll _ _ | .run _ | .worker _ | .complete _ _ => True

abbrev UringRun [DecidableEq ι] (willWake : ω → ω → Bool) (depth : Nat)
    (ok : St ι ω → Act ι ω → Prop) : List (Act ι ω) → St ι ω × (Nat → Option ι) → Prop :=
  Run (initHist (· = St.new depth) fun _ => none) (withHist (step willWake) upd) fun p a => ok p.1 a

/-! ## The invariant -/

/-- The entry whose result the worker is about to store. -/
def WorkerPc.storing : WorkerPc ι → Multiset (Entry ι)
  | .store entry _ => {entry}
  | _ => 0

/-- The entries whose result is not stored yet. -/
def St.entries (s : St ι ω) : Multiset (Entry ι) :=
  s.pending + s.worker.batch + s.inFlight + (s.cq.map Prod.fst : List (Entry ι)) + s.worker.storing

def Pc.addr : Pc ω → Option Addr
  | .fresh | .gone => none
  | .storePending i | .dropLoad i | .pushFree i => some (.pooled i)
  | .push addr | .idle addr | .load addr _ | .register addr | .reload addr => some addr

/-- The operation has pushed its entry and has not found its result in `drop`. -/
def Pc.submitted : Pc ω → Bool
  | .idle _ | .load _ _ | .register _ | .reload _ | .dropLoad _ | .gone => true
  | .fresh | .storePending _ | .push _ | .pushFree _ => false

/-- The operation has the `OpState`. -/
def Has (boxes : Nat → Bool) (assigned : Nat → Option ι) (o : ι) : Addr → Prop
  | .pooled i => assigned i = some o
  | .box n => boxes n = true

structure EntryOk (s : St ι ω) (assigned : Nat → Option ι) (entry : Entry ι) : Prop where
  submitted : (s.op entry.op).submitted = true
  addr : ∀ addr, (s.op entry.op).addr = some addr → entry.addr = addr
  has : Has s.boxes assigned entry.op entry.addr
  result : ∀ i, entry.addr = .pooled i → (s.mem entry.addr).result = none

structure Inv (s : St ι ω) (assigned : Nat → Option ι) : Prop where
  free : s.free.Nodup ∧ ∀ i ∈ s.free, assigned i = none
  op : ∀ o addr, (s.op o).addr = some addr → Has s.boxes assigned o addr
  push : ∀ o i, s.op o = .push (.pooled i) → (s.mem (.pooled i)).result = none
  boxes : ∀ n, s.boxes n = true → n < s.allocated
  owner : ∀ o o' n, (s.op o).addr = some (.box n) → (s.op o').addr = some (.box n) → o = o'
  nodup : (s.entries.map Entry.op).Nodup
  entry : ∀ entry ∈ s.entries, EntryOk s assigned entry
  touches : ∀ addr, s.touches = some addr → Live s.boxes addr

section

variable {s s' : St ι ω} {assigned : Nat → Option ι} {o : ι} {addr : Addr}

theorem touches_congr (hworker : s'.worker = s.worker)
    (htakers : ∀ addr, (s'.mem addr).waker.takers = (s.mem addr).waker.takers) :
    s'.touches = s.touches := by
  simp only [St.touches, hworker, htakers]

/-- The memory changes in its wakers only, and not in what the worker does there. -/
structure SameResults (s s' : St ι ω) : Prop where
  result : ∀ addr, (s'.mem addr).result = (s.mem addr).result
  takers : ∀ addr, (s'.mem addr).waker.takers = (s.mem addr).waker.takers

variable {slot : WakerSlot.Slot ω} {e : Entry ι} {i : Nat}

theorem sameResults_setWaker (htakers : slot.takers = (s.mem addr).waker.takers) :
    SameResults s (s.setWaker addr slot) := by
  refine ⟨fun a => ?_, fun a => ?_⟩ <;> rcases eq_or_ne a addr with rfl | hne
  · simp [St.setWaker]
  · simp [St.setWaker, hne]
  · simpa [St.setWaker] using htakers
  · simp [St.setWaker, hne]

/-- The worker or the kernel moves: entries may be lost, and results stay. -/
theorem Inv.work (hinv : Inv s assigned)
    (hresult : ∀ addr, (s'.mem addr).result = (s.mem addr).result)
    (hframe : s'.free = s.free ∧ s'.boxes = s.boxes ∧ s'.allocated = s.allocated ∧ s'.op = s.op)
    (hentries : s'.entries ≤ s.entries)
    (htouches : ∀ addr, s'.touches = some addr → Live s'.boxes addr) : Inv s' assigned := by
  obtain ⟨hfree, hboxes, halloc, hop⟩ := hframe
  refine ⟨hfree ▸ hinv.free, fun o addr ho => hboxes ▸ hinv.op o addr (hop ▸ ho),
    fun o i ho => (hresult _).trans (hinv.push o i (hop ▸ ho)), ?_, ?_, ?_, fun e he => ?_,
    htouches⟩
  · rw [hboxes, halloc]
    exact hinv.boxes
  · rw [hop]
    exact hinv.owner
  · exact Multiset.nodup_of_le (Multiset.map_le_map hentries) hinv.nodup
  · obtain ⟨hsub, haddr, hh, hres⟩ := hinv.entry e (Multiset.mem_of_le hentries he)
    exact ⟨hop ▸ hsub, hop ▸ haddr, hboxes ▸ hh, fun i hi => (hresult _).trans (hres i hi)⟩

theorem mem_entries (he : e ∈ s.entries) :
    e ∈ s.pending ++ s.worker.batch ++ s.inFlight ++ s.cq.map Prod.fst ∨
      ∃ res, s.worker = .store e res := by
  simp only [St.entries, Multiset.mem_add, Multiset.mem_coe] at he
  rcases he with he | he
  · left
    simpa only [List.mem_append] using he
  · right
    cases hw : s.worker with
    | store e' res =>
      rw [hw] at he
      obtain rfl := Multiset.mem_singleton.mp he
      exact ⟨res, rfl⟩
    | top | submit | wait | reap | wake =>
      rw [hw] at he
      exact absurd he (Multiset.notMem_zero e)

theorem EntryOk.live (hok : EntryOk s assigned e) : Live s.boxes e.addr := by
  have hhas := hok.has
  cases haddr : e.addr with
  | pooled i => trivial
  | box n =>
    rw [haddr] at hhas
    exact hhas

theorem Inv.not_entry (hinv : Inv s assigned) (hsub : (s.op o).submitted = false) :
    ∀ e ∈ s.entries, e.op ≠ o := by
  rintro e he rfl
  cases hsub.symm.trans (hinv.entry e he).submitted

/-- An operation gets an `OpState`. -/
structure Gets (s : St ι ω) (assigned : Nat → Option ι) (o : ι) (addr : Addr) : Prop where
  has : Has s.boxes assigned o addr
  entry : ∀ e ∈ s.entries, e.op ≠ o
  other : ∀ o' n, (s.op o').addr = some (.box n) → addr ≠ .box n

variable [DecidableEq ι]

@[simp]
theorem St.goto_self (s : St ι ω) (o : ι) (pc : Pc ω) : (s.goto o pc).op o = pc :=
  Function.update_self _ _ _

theorem St.goto_of_ne (s : St ι ω) {o o' : ι} (pc : Pc ω) (hne : o' ≠ o) :
    (s.goto o pc).op o' = s.op o' :=
  Function.update_of_ne hne _ _

/-- An operation moves. It keeps its `OpState`, gets one or leaves it. -/
theorem Inv.goto (hinv : Inv s assigned) {pc : Pc ω}
    (haddr : ∀ addr, pc.addr = some addr → (s.op o).addr = some addr ∨ Gets s assigned o addr)
    (hpush : ∀ i, pc = .push (.pooled i) → (s.mem (.pooled i)).result = none)
    (hsub : pc.submitted = true ∨ ∀ e ∈ s.entries, e.op ≠ o) : Inv (s.goto o pc) assigned := by
  have hself := s.goto_self o pc
  have hother {o' : ι} (hne : o' ≠ o) : (s.goto o pc).op o' = s.op o' := s.goto_of_ne pc hne
  have haddr' {o' : ι} {addr : Addr} (ho : ((s.goto o pc).op o').addr = some addr) :
      (s.op o').addr = some addr ∨ o' = o ∧ Gets s assigned o addr := by
    rcases eq_or_ne o' o with rfl | hne
    · rw [hself] at ho
      exact (haddr addr ho).imp_right fun hg => ⟨rfl, hg⟩
    · rw [hother hne] at ho
      exact .inl ho
  refine { hinv with
    op := fun o' a ho => ?_
    push := fun o' i ho => ?_
    owner := fun o₁ o₂ n h₁ h₂ => ?_
    entry := fun e he => ?_ }
  · rcases haddr' ho with ho | ⟨rfl, hg⟩
    · exact hinv.op o' a ho
    · exact hg.has
  · rcases eq_or_ne o' o with rfl | hne
    · rw [hself] at ho
      exact hpush i ho
    · rw [hother hne] at ho
      exact hinv.push o' i ho
  · rcases haddr' h₁ with h₁' | ⟨rfl, hg⟩ <;> rcases haddr' h₂ with h₂' | ⟨rfl, hg'⟩
    · exact hinv.owner o₁ o₂ n h₁' h₂'
    · exact absurd rfl (hg'.other o₁ n h₁')
    · exact absurd rfl (hg.other o₂ n h₂')
    · rfl
  · have he' : e ∈ s.entries := he
    obtain ⟨hs, ha, hh, hr⟩ := hinv.entry e he'
    refine ⟨?_, fun a ho => ?_, hh, hr⟩
    · rcases eq_or_ne e.op o with heq | hne
      · rw [heq, hself]
        exact hsub.resolve_right fun hall => hall e he' heq
      · rwa [hother hne]
    · rcases haddr' ho with ho | ⟨heq, hg⟩
      · exact ha a ho
      · exact absurd heq (hg.entry e he')

section

variable (hinv : Inv s assigned)

include hinv

omit [DecidableEq ι] in
theorem Inv.setWaker (htakers : slot.takers = (s.mem addr).waker.takers) :
    Inv (s.setWaker addr slot) assigned := by
  have hsame := sameResults_setWaker htakers
  refine hinv.work hsame.result ⟨rfl, rfl, rfl, rfl⟩ le_rfl fun a ha => ?_
  have htouches : (s.setWaker addr slot).touches = s.touches := touches_congr rfl hsame.takers
  exact hinv.touches a (htouches ▸ ha)

theorem Inv.storePending (hpc : s.op o = .storePending i) :
    Inv ((s.setResult (.pooled i) none).goto o (.push (.pooled i))) assigned := by
  have hresult {a : Addr} (hr : (s.mem a).result = none) :
      ((s.setResult (.pooled i) none).mem a).result = none := by
    rcases eq_or_ne a (.pooled i) with rfl | hne
    · simp [St.setResult]
    · simpa [St.setResult, hne] using hr
  have htakers (a : Addr) : ((s.setResult (.pooled i) none).mem a).waker.takers =
      (s.mem a).waker.takers := by
    rcases eq_or_ne a (.pooled i) with rfl | hne
    · simp [St.setResult]
    · simp [St.setResult, hne]
  have hset : Inv (s.setResult (.pooled i) none) assigned := by
    refine { hinv with
      push := fun o' j ho => hresult (hinv.push o' j ho)
      entry := fun e he => ?_
      touches := fun a ha => ?_ }
    · obtain ⟨hs, ha, hh, hr⟩ := hinv.entry e he
      exact ⟨hs, ha, hh, fun j hj => hresult (hr j hj)⟩
    · have htouches : (s.setResult (.pooled i) none).touches = s.touches :=
        touches_congr rfl htakers
      exact hinv.touches a (htouches ▸ ha)
  refine hset.goto (fun a ha => .inl ?_) (fun j hj => ?_) (.inr ?_)
  · have hop : (s.setResult (.pooled i) none).op o = .storePending i := hpc
    rw [hop]
    exact ha
  · obtain rfl : i = j := Addr.pooled.inj (Pc.push.inj hj)
    simp [St.setResult]
  · exact hinv.not_entry (by simp [hpc, Pc.submitted])

theorem Inv.push_entry (hpc : s.op o = .push addr) :
    Inv { s.goto o (.idle addr) with pending := ⟨o, addr⟩ :: s.pending } assigned := by
  have hnot := hinv.not_entry (o := o) (by simp [hpc, Pc.submitted])
  have hgoto : Inv (s.goto o (.idle addr)) assigned :=
    hinv.goto (fun a ha => .inl (by rw [hpc]; exact ha)) (by simp) (.inl rfl)
  have hentries : ({ s.goto o (.idle addr) with pending := ⟨o, addr⟩ :: s.pending } :
      St ι ω).entries = ⟨o, addr⟩ ::ₘ s.entries := by
    simp only [St.entries, ← Multiset.cons_coe, Multiset.cons_add]
    rfl
  have hself := s.goto_self o (.idle addr)
  refine { hgoto with
    nodup := ?_
    entry := fun e he => ?_ }
  · rw [hentries, Multiset.map_cons, Multiset.nodup_cons]
    refine ⟨fun hmem => ?_, hinv.nodup⟩
    obtain ⟨e, he, heq⟩ := Multiset.mem_map.mp hmem
    exact hnot e he heq
  · rw [hentries, Multiset.mem_cons] at he
    rcases he with rfl | he
    · refine ⟨by simp [Pc.submitted], fun a ha => ?_, hinv.op o addr (by rw [hpc]; rfl),
        fun i hi => ?_⟩
      · simp only [hself] at ha
        exact Option.some.inj ha
      · have hi' : addr = .pooled i := hi
        subst hi'
        exact hinv.push o i hpc
    · obtain ⟨hs, ha, hh, hr⟩ := hgoto.entry e he
      exact ⟨hs, ha, hh, hr⟩

theorem Inv.submit_pooled {rest : List Nat} (hpc : s.op o = .fresh) (hfree : s.free = i :: rest) :
    Inv { s.goto o (.storePending i) with free := rest }
      (Function.update assigned i (some o)) := by
  obtain ⟨hnodup, hall⟩ := hfree ▸ hinv.free
  obtain ⟨hi, hnodup⟩ := List.nodup_cons.mp hnodup
  have hnone : assigned i = none := hall i List.mem_cons_self
  have hhas {o' : ι} {a : Addr} (hh : Has s.boxes assigned o' a) :
      Has s.boxes (Function.update assigned i (some o)) o' a := by
    cases a with
    | pooled j =>
      have hne : j ≠ i := by
        rintro rfl
        cases hnone.symm.trans hh
      exact (Function.update_of_ne hne _ _).trans hh
    | box n => exact hh
  have htake : Inv { s with free := rest } (Function.update assigned i (some o)) := by
    refine { hinv with
      free := ⟨hnodup, fun j hj => ?_⟩
      op := fun o' a ho => hhas (hinv.op o' a ho)
      entry := fun e he => ?_ }
    · have hne : j ≠ i := fun heq => hi (heq ▸ hj)
      exact (Function.update_of_ne hne _ _).trans (hall j (List.mem_cons_of_mem i hj))
    · obtain ⟨hs, ha, hh, hr⟩ := hinv.entry e he
      exact ⟨hs, ha, hhas hh, hr⟩
  have hnot := hinv.not_entry (o := o) (by simp [hpc, Pc.submitted])
  refine htake.goto (fun a ha => .inr ?_) (by simp) (.inr hnot)
  obtain rfl := Option.some.inj ha
  exact ⟨Function.update_self _ _ _, hnot, by simp⟩

theorem Inv.submit_box (hpc : s.op o = .fresh) :
    Inv { s.goto o (.push (.box s.allocated)) with
      mem := Function.update s.mem (.box s.allocated) .fresh
      boxes := Function.update s.boxes s.allocated true
      allocated := s.allocated + 1 } assigned := by
  have hboxes {n : Nat} (hn : s.boxes n = true) : n ≠ s.allocated := (hinv.boxes n hn).ne
  have hkeep {n : Nat} (hn : s.boxes n = true) :
      Function.update s.boxes s.allocated true n = true :=
    (Function.update_of_ne (hboxes hn) _ _).trans hn
  have hhas {o' : ι} {a : Addr} (hh : Has s.boxes assigned o' a) :
      Has (Function.update s.boxes s.allocated true) assigned o' a := by
    cases a with
    | pooled j => exact hh
    | box n => exact hkeep hh
  have halloc : Inv { s with
      mem := Function.update s.mem (.box s.allocated) .fresh
      boxes := Function.update s.boxes s.allocated true
      allocated := s.allocated + 1 } assigned := by
    refine { hinv with
      op := fun o' a ho => hhas (hinv.op o' a ho)
      push := fun o' i ho => ?_
      boxes := fun n hn => ?_
      entry := fun e he => ?_
      touches := fun a ha => ?_ }
    · simpa using hinv.push o' i ho
    · rcases eq_or_ne n s.allocated with rfl | hne
      · exact Nat.lt_succ_self _
      · exact (hinv.boxes n ((Function.update_of_ne hne _ _).symm.trans hn)).trans
          (Nat.lt_succ_self _)
    · obtain ⟨hs, ha, hh, hr⟩ := hinv.entry e he
      refine ⟨hs, ha, hhas hh, fun i hi => ?_⟩
      simpa [hi] using hr i hi
    · have hold : s.touches = some a := by
        simp only [St.touches] at ha ⊢
        split at ha
        · exact ha
        · next e he =>
          rcases eq_or_ne e.addr (.box s.allocated) with heq | hne
          · simp [heq, OpState.fresh, WakerSlot.Slot.new, touching] at ha
          · simpa [hne] using ha
        · cases ha
      have hlive := hinv.touches a hold
      cases a with
      | pooled i => trivial
      | box n => exact hkeep hlive
  have hnot := hinv.not_entry (o := o) (by simp [hpc, Pc.submitted])
  refine halloc.goto (fun a ha => .inr ?_) (by simp) (.inr hnot)
  obtain rfl := Option.some.inj ha
  refine ⟨Function.update_self _ _ _, hnot, fun o' n ho heq => ?_⟩
  obtain rfl := Addr.box.inj heq
  exact hboxes (hinv.op o' _ ho) rfl

theorem Inv.drop_box {n : Nat} (hpc : s.op o = .idle (.box n)) (hsettled : s.Settled (.box n)) :
    Inv { s.goto o .gone with boxes := Function.update s.boxes n false } assigned := by
  have hgone : Inv (s.goto o .gone) assigned :=
    hinv.goto (by simp [Pc.addr]) (by simp) (.inl rfl)
  have hhas {o' : ι} {a : Addr} (hne : a ≠ .box n) (hh : Has s.boxes assigned o' a) :
      Has (Function.update s.boxes n false) assigned o' a := by
    cases a with
    | pooled j => exact hh
    | box m => exact (Function.update_of_ne (fun heq => hne (congrArg Addr.box heq)) _ _).trans hh
  refine { hgone with
    op := fun o' a ho => hhas ?_ (hgone.op o' a ho)
    boxes := fun m hm => ?_
    entry := fun e he => ?_
    touches := fun a ha => ?_ }
  · -- Nobody else has the box.
    rintro rfl
    rcases eq_or_ne o' o with rfl | hne
    · simp [Pc.addr] at ho
    · have ho' : (s.op o').addr = some (.box n) := by simpa only [s.goto_of_ne _ hne] using ho
      exact hne (hinv.owner o' o n ho' (by rw [hpc]; rfl))
  · have hne : m ≠ n := by
      rintro rfl
      simp at hm
    exact hinv.boxes m ((Function.update_of_ne hne _ _).symm.trans hm)
  · obtain ⟨hs, ha, hh, hr⟩ := hgone.entry e he
    refine ⟨hs, ha, hhas (fun heq => ?_) hh, hr⟩
    rcases mem_entries (s := s) he with hmem | ⟨res, hstore⟩
    · exact hsettled.1 e hmem heq
    · refine hsettled.2 ?_
      rw [St.touches, hstore, ← heq]
  · have ha' : s.touches = some a := ha
    have hne : a ≠ .box n := fun heq => hsettled.2 (heq ▸ ha')
    have hlive := hinv.touches a ha'
    cases a with
    | pooled i => trivial
    | box m =>
      have hmn : m ≠ n := fun heq => hne (congrArg Addr.box heq)
      exact (Function.update_of_ne hmn _ _).trans hlive

theorem Inv.pushFree (hpc : s.op o = .pushFree i) :
    Inv { s.goto o .gone with free := i :: s.free } (Function.update assigned i none) := by
  have hassigned : assigned i = some o := hinv.op o (.pooled i) (by rw [hpc]; rfl)
  have hnot := hinv.not_entry (o := o) (by simp [hpc, Pc.submitted])
  have hgone : Inv (s.goto o .gone) assigned :=
    hinv.goto (by simp [Pc.addr]) (by simp) (.inl rfl)
  have hhas {o' : ι} {a : Addr} (hne : o' ≠ o) (hh : Has s.boxes assigned o' a) :
      Has s.boxes (Function.update assigned i none) o' a := by
    cases a with
    | pooled j =>
      have hji : j ≠ i := by
        rintro rfl
        exact hne (Option.some.inj (hh.symm.trans hassigned))
      exact (Function.update_of_ne hji _ _).trans hh
    | box n => exact hh
  refine { hgone with
    free := ⟨List.nodup_cons.mpr ⟨fun hi => ?_, hinv.free.1⟩, fun j hj => ?_⟩
    op := fun o' a ho => hhas ?_ (hgone.op o' a ho)
    entry := fun e he => ?_ }
  · cases hassigned.symm.trans (hinv.free.2 i hi)
  · rcases eq_or_ne j i with rfl | hne
    · exact Function.update_self _ _ _
    · exact (Function.update_of_ne hne _ _).trans
        (hinv.free.2 j ((List.mem_cons.mp hj).resolve_left hne))
  · rintro rfl
    simp [Pc.addr] at ho
  · obtain ⟨hs, ha, hh, hr⟩ := hgone.entry e he
    exact ⟨hs, ha, hhas (hnot e he) hh, hr⟩

theorem Inv.runOp {willWake : ω → ω → Bool} (hst : runOp willWake o s (s.op o) = some s') :
    Inv s' (upd (.run o : Act ι ω) s assigned) := by
  have hkeep {pc : Pc ω} (haddr : pc.addr = (s.op o).addr) (a : Addr) (ha : pc.addr = some a) :
      (s.op o).addr = some a ∨ Gets s assigned o a := .inl (haddr ▸ ha)
  simp only [upd]
  generalize hpc : s.op o = pc at hst
  cases pc with
  | fresh | idle | gone =>
    cases hst
  | storePending i =>
    cases hst
    exact hinv.storePending hpc
  | push addr =>
    cases hst
    exact hinv.push_entry hpc
  | load addr waker =>
    simp only [Uring.runOp] at hst
    split_ifs at hst with hdone
    · cases hst
      exact hinv.goto (hkeep (by rw [hpc]; rfl)) (by simp) (.inl rfl)
    · cases hst
      have hslot : Inv (s.setWaker addr { (s.mem addr).waker with reg := .acquire waker })
          assigned := hinv.setWaker rfl
      refine hslot.goto (fun a ha => .inl ?_) (by simp) (.inl rfl)
      rw [St.setWaker, hpc]
      exact ha
  | register addr =>
    obtain ⟨slot, hslot, rfl⟩ := Option.map_eq_some_iff.mp hst
    refine (hinv.setWaker (WakerSlot.regStep_takers hslot)).goto (fun a ha => .inl ?_) ?_ (.inl ?_)
    · simp only [St.setWaker, hpc]
      split at ha <;> exact ha
    · intro i
      split <;> simp
    · split <;> rfl
  | reload addr =>
    cases hst
    exact hinv.goto (hkeep (by rw [hpc]; rfl)) (by simp) (.inl rfl)
  | dropLoad i =>
    simp only [Uring.runOp] at hst
    split_ifs at hst with hdone
    · -- The result is there, so the entry has been served.
      cases hst
      refine hinv.goto (hkeep (by rw [hpc]; rfl)) (by simp) (.inr ?_)
      rintro e he rfl
      have hentry := hinv.entry e he
      have haddr := hentry.addr (.pooled i) (by rw [hpc]; rfl)
      rw [← haddr, hentry.result i haddr] at hdone
      cases hdone
    · cases hst
      exact hinv.goto (by simp [Pc.addr]) (by simp) (.inl rfl)
  | pushFree i =>
    cases hst
    exact hinv.pushFree hpc

end

omit [DecidableEq ι] in
theorem Inv.store (hinv : Inv s assigned) {res : Int} (hpc : s.worker = .store e res) :
    Inv { (s.setResult e.addr (some res)).setWaker e.addr slot with worker := .wake e }
      assigned := by
  have hentries : s.entries = e ::ₘ ({ (s.setResult e.addr (some res)).setWaker e.addr slot with
      worker := .wake e } : St ι ω).entries := by
    simp only [St.entries, hpc, WorkerPc.storing]
    rw [Multiset.add_comm _ {e}, Multiset.singleton_add, Multiset.add_zero]
    rfl
  have he : e ∈ s.entries := hentries ▸ Multiset.mem_cons_self e _
  have hentry := hinv.entry e he
  have hnodup := hinv.nodup
  rw [hentries, Multiset.map_cons, Multiset.nodup_cons] at hnodup
  have hresult {a : Addr} (hne : a ≠ e.addr) :
      (((s.setResult e.addr (some res)).setWaker e.addr slot).mem a).result =
        (s.mem a).result := by
    simp [St.setWaker, St.setResult, hne]
  -- Who has the slot of the entry is the operation of the entry.
  have hsame {o : ι} {i : Nat} (heq : e.addr = .pooled i) (hi : assigned i = some o) :
      e.op = o := by
    have hh := hentry.has
    rw [heq] at hh
    exact Option.some.inj (hh.symm.trans hi)
  refine { hinv with
    push := fun o i ho => (hresult fun heq => ?_).trans (hinv.push o i ho)
    nodup := hnodup.2
    entry := fun e' he' => ?_
    touches := fun a ha => ?_ }
  · have ho' : s.op o = .push (.pooled i) := ho
    have hop := hsame heq.symm (hinv.op o (.pooled i) (by rw [ho']; rfl))
    have hsub := hentry.submitted
    rw [hop, ho'] at hsub
    cases hsub
  · have hmem : e' ∈ s.entries := hentries ▸ Multiset.mem_cons_of_mem he'
    obtain ⟨hs, ha, hh, hr⟩ := hinv.entry e' hmem
    refine ⟨hs, ha, hh, fun i hi => (hresult fun heq => ?_).trans (hr i hi)⟩
    rw [hi] at hh
    have hop := hsame (heq.symm.trans hi) hh
    exact hnodup.1 (hop ▸ Multiset.mem_map_of_mem Entry.op he')
  · obtain rfl : e.addr = a := Option.some.inj (Option.ite_none_right_eq_some.mp ha).2
    exact hentry.live

/-- `take_and_wake` does not come back to the waker slot. -/
theorem touching_of_takerStep {slot' : WakerSlot.Slot ω}
    (hslot : WakerSlot.takerStep 0 slot = some slot') (htouching : touching (slot'.takers 0)) :
    touching (slot.takers 0) := by
  simp only [WakerSlot.takerStep] at hslot
  split at hslot
  · cases hslot
  · next hpc => rw [hpc]; rfl
  · next hpc => rw [hpc]; rfl
  · next hpc => rw [hpc]; rfl
  · cases hslot
    simp [touching] at htouching
  · next hpc => rw [hpc]; rfl

omit [DecidableEq ι] in
theorem Inv.wake (hinv : Inv s assigned) (hpc : s.worker = .wake e)
    (hslot : WakerSlot.takerStep 0 (s.mem e.addr).waker = some slot) :
    Inv { s.setWaker e.addr slot with
      worker := if slot.takers 0 matches .idle then .reap else .wake e } assigned := by
  refine hinv.work (fun a => ?_) ⟨rfl, rfl, rfl, rfl⟩ ?_ fun a ha => hinv.touches a ?_
  · rcases eq_or_ne a e.addr with rfl | hne
    · simp [St.setWaker]
    · simp [St.setWaker, hne]
  · refine le_of_eq ?_
    simp only [St.entries, hpc]
    split <;> rfl
  · simp only [St.touches] at ha ⊢
    rw [hpc]
    split at ha
    · next h =>
      split at h <;> cases h
    · next e' h =>
      split at h
      · cases h
      · cases h
        simp only [St.setWaker, Function.update_self, Option.ite_none_right_eq_some] at ha ⊢
        exact ⟨touching_of_takerStep hslot ha.1, ha.2⟩
    · cases ha

omit [DecidableEq ι] in
theorem Inv.runWorker (hinv : Inv s assigned) {ok : Bool}
    (hst : runWorker ok s s.worker = some s') : Inv s' assigned := by
  generalize hpc : s.worker = pc at hst
  cases pc with
  | top =>
    simp only [Uring.runWorker] at hst
    split at hst
    · cases hst
      exact hinv
    · cases hst
      refine hinv.work (fun _ => rfl) ⟨rfl, rfl, rfl, rfl⟩ (le_of_eq ?_) (by simp [St.touches])
      simp only [St.entries, hpc, WorkerPc.batch, WorkerPc.storing]
      simp
  | submit batch =>
    cases batch with
    | nil =>
      cases hst
      refine hinv.work (fun _ => rfl) ⟨rfl, rfl, rfl, rfl⟩ (le_of_eq ?_) (by simp [St.touches])
      simp only [St.entries, hpc]
      rfl
    | cons e batch =>
      simp only [Uring.runWorker] at hst
      split at hst
      · cases hst
        refine hinv.work (fun _ => rfl) ⟨rfl, rfl, rfl, rfl⟩ (le_of_eq ?_) (by simp [St.touches])
        simp only [St.entries, hpc, WorkerPc.batch, WorkerPc.storing, ← Multiset.cons_coe]
        simp only [Multiset.add_cons, Multiset.cons_add]
      · cases hst
        refine hinv.work (fun _ => rfl) ⟨rfl, rfl, rfl, rfl⟩ ?_ (by simp [St.touches])
        simp only [St.entries, hpc, WorkerPc.batch, WorkerPc.storing, ← Multiset.cons_coe]
        simp only [Multiset.add_cons, Multiset.cons_add]
        exact Multiset.le_cons_self _ _
  | wait =>
    cases hst
    refine hinv.work (fun _ => rfl) ⟨rfl, rfl, rfl, rfl⟩ (le_of_eq ?_) fun a ha => ?_
    · simp only [St.entries, hpc]
      split <;> rfl
    · simp only [St.touches] at ha
      split at ha
      · next h => split at h <;> cases h
      · next h => split at h <;> cases h
      · cases ha
  | reap =>
    simp only [Uring.runWorker] at hst
    split at hst
    · next e res cq hcq =>
      cases hst
      refine hinv.work (fun _ => rfl) ⟨rfl, rfl, rfl, rfl⟩ (le_of_eq ?_) fun a ha => ?_
      · simp only [St.entries, hpc, hcq, WorkerPc.batch, WorkerPc.storing, List.map_cons,
          ← Multiset.cons_coe, Multiset.add_cons, Multiset.add_zero]
        rw [Multiset.add_comm _ {e}, Multiset.singleton_add]
      · obtain rfl : e.addr = a := Option.some.inj ha
        refine (hinv.entry e ?_).live
        simp [St.entries, hcq]
    · cases hst
      refine hinv.work (fun _ => rfl) ⟨rfl, rfl, rfl, rfl⟩ (le_of_eq ?_) (by simp [St.touches])
      simp only [St.entries, hpc]
      rfl
  | store e res =>
    cases hst
    exact hinv.store hpc
  | wake e =>
    obtain ⟨slot, hslot, rfl⟩ := Option.map_eq_some_iff.mp hst
    exact hinv.wake hpc hslot

theorem Inv.step (hinv : Inv s assigned) {willWake : ω → ω → Bool} {a : Act ι ω}
    (hok : Settled s a) (hst : step willWake a s = some s') : Inv s' (upd a s assigned) := by
  cases a with
  | submit o =>
    simp only [Uring.step] at hst
    split at hst
    · next i rest hpc hfree =>
      cases hst
      simp only [upd, hpc, hfree]
      exact hinv.submit_pooled hpc hfree
    · next hpc hfree =>
      cases hst
      simp only [upd, hpc, hfree]
      exact hinv.submit_box hpc
    · cases hst
  | poll o waker =>
    simp only [Uring.step] at hst
    split at hst
    · next addr hpc =>
      cases hst
      exact hinv.goto (fun a ha => .inl (by rw [hpc]; exact ha)) (by simp) (.inl rfl)
    · cases hst
  | drop o =>
    simp only [Uring.step] at hst
    split at hst
    · next i hpc =>
      cases hst
      exact hinv.goto (fun a ha => .inl (by rw [hpc]; exact ha)) (by simp) (.inl rfl)
    · next n hpc =>
      cases hst
      simp only [Settled, hpc, Pc.Settled] at hok
      exact hinv.drop_box hpc hok
    · cases hst
  | run o => exact hinv.runOp hst
  | worker ok => exact hinv.runWorker hst
  | complete e res =>
    simp only [Uring.step] at hst
    split_ifs at hst with hmem
    cases hst
    refine hinv.work (fun _ => rfl) ⟨rfl, rfl, rfl, rfl⟩ (le_of_eq ?_) hinv.touches
    have hperm : (s.inFlight : Multiset (Entry ι)) = e ::ₘ (s.inFlight.erase e : List (Entry ι)) :=
      Multiset.coe_eq_coe.mpr (List.perm_cons_erase hmem)
    simp only [St.entries, hperm, List.map_append, List.map_cons, List.map_nil,
      ← Multiset.coe_add, Multiset.coe_singleton, Multiset.add_cons, Multiset.cons_add]
    rw [Multiset.add_comm (s.cq.map Prod.fst : List (Entry ι)) {e}, Multiset.singleton_add]
    simp only [Multiset.add_cons, Multiset.cons_add]

end

theorem inv_new (depth : Nat) : Inv (St.new depth : St ι ω) fun _ => none where
  free := ⟨List.nodup_reverse.mpr List.nodup_range, fun _ _ => rfl⟩
  op := by simp [St.new, Pc.addr]
  push := by simp [St.new]
  boxes := by simp [St.new]
  owner := by simp [St.new, Pc.addr]
  nodup := by simp [St.new, St.entries, WorkerPc.batch, WorkerPc.storing]
  entry := by simp [St.new, St.entries, WorkerPc.batch, WorkerPc.storing]
  touches := by simp [St.new, St.touches]

theorem Inv.alive {s : St ι ω} {assigned : Nat → Option ι} (hinv : Inv s assigned) :
    Alive s assigned := by
  refine ⟨hinv.touches, fun e res i hpc haddr => ?_⟩
  have hmem : e ∈ s.entries := by simp [St.entries, hpc, WorkerPc.storing]
  have hhas := (hinv.entry e hmem).has
  rw [haddr] at hhas
  exact hhas

/-- The worker touches live memory, and slots that are still assigned to the operation. -/
theorem opState_alive [DecidableEq ι] (willWake : ω → ω → Bool) (depth : Nat)
    (tr : List (Act ι ω)) (s : St ι ω) (assigned : Nat → Option ι)
    (hrun : UringRun willWake depth Settled tr (s, assigned)) : Alive s assigned := by
  have hinv : Inv s assigned := by
    refine hrun.hist_invariant (I := Inv) ?_ (fun _ _ _ _ hinv hok hst => hinv.step hok hst)
    rintro s rfl
    exact inv_new depth
  exact hinv.alive

/-! ## Runs -/

instance (s : St ι ω) (addr : Addr) [DecidableEq ι] : Decidable (s.Settled addr) :=
  inferInstanceAs (Decidable ((∀ entry ∈ _, _) ∧ _))

instance [DecidableEq ι] (s : St ι ω) : (pc : Pc ω) → Decidable (pc.Settled s)
  | .idle (.box n) => inferInstanceAs (Decidable (s.Settled (.box n)))
  | .idle (.pooled _) | .fresh | .storePending _ | .push _ | .load _ _ | .register _ | .reload _
  | .dropLoad _ | .pushFree _ | .gone => inferInstanceAs (Decidable True)

instance [DecidableEq ι] (s : St ι ω) : (a : Act ι ω) → Decidable (Settled s a)
  | .drop o => inferInstanceAs (Decidable ((s.op o).Settled s))
  | .submit _ | .poll _ _ | .run _ | .worker _ | .complete _ _ => inferInstanceAs (Decidable True)

/-- Operation 0 gets the only slot of the pool, operation 1 a box. -/
def submitBoth : List (Act (Fin 2) Unit) := [.submit 0, .run 0, .run 0, .submit 1, .run 1]

/-- The worker hands both entries to the ring, operation 1 completes, and the worker is about to
store its result. -/
def completeBox : List (Act (Fin 2) Unit) :=
  .replicate 4 (.worker true) ++ [.complete ⟨1, .box 0⟩ 5] ++ .replicate 2 (.worker true)

def pollAndDrop : List (Act (Fin 2) Unit) := [.poll 1 (), .run 1, .drop 1]

/-- The box is freed when the worker is done with it; then operation 0 completes. -/
def dropLate : List (Act (Fin 2) Unit) :=
  submitBoth ++ completeBox ++ .replicate 5 (.worker true) ++ pollAndDrop ++
    [.complete ⟨0, .pooled 0⟩ 7, .worker true]

theorem opState_alive_dropLate : ∃ (s : St (Fin 2) Unit) (assigned : Nat → Option (Fin 2)),
    UringRun (fun _ _ => true) 1 Settled dropLate.reverse (s, assigned) ∧ s.boxes 0 = false ∧
      s.touches = some (.pooled 0) ∧ assigned 0 = some 0 ∧ Alive s assigned := by
  obtain ⟨⟨s, assigned⟩, hrun, heq⟩ : ∃ p, UringRun (fun _ _ => true) 1 Settled dropLate.reverse p ∧
      p.1.boxes 0 = false ∧ p.1.touches = some (.pooled 0) ∧ p.2 0 = some 0 :=
    Run.exists_of_guarded dropLate (St.new 1, fun _ => none) ⟨rfl, rfl⟩ (by decide +kernel)
  exact ⟨s, assigned, hrun, heq.1, heq.2.1, heq.2.2, opState_alive _ 1 _ s assigned hrun⟩

def dropInFlight : List (Act (Fin 2) Unit) := submitBoth ++ [.drop 1] ++ completeBox

/-- Operation 1 finds its result, and is dropped before the worker calls `take_and_wake`. -/
def dropBeforeWake : List (Act (Fin 2) Unit) :=
  submitBoth ++ completeBox ++ [.worker true] ++ pollAndDrop

theorem not_alive_of_exec {tr : List (Act (Fin 2) Unit)}
    (hexec : (exec (withHist (step fun _ _ => true) upd) tr (St.new 1, fun _ => none)).map
      (fun p => (p.1.boxes 0, p.1.touches)) = some (false, some (.box 0))) :
    ∃ (s : St (Fin 2) Unit) (assigned : Nat → Option (Fin 2)),
      UringRun (fun _ _ => true) 1 Free tr.reverse (s, assigned) ∧ ¬ Alive s assigned := by
  obtain ⟨⟨s, assigned⟩, hexec, heq⟩ := Option.map_eq_some_iff.mp hexec
  simp only [Prod.mk.injEq] at heq
  refine ⟨s, assigned, Run.of_exec _ ⟨rfl, rfl⟩ hexec, fun halive => ?_⟩
  cases heq.1.symm.trans (halive.touches (.box 0) heq.2)

theorem box_freed_in_flight :
    (∃ (s : St (Fin 2) Unit) (assigned : Nat → Option (Fin 2)),
      UringRun (fun _ _ => true) 1 Free dropInFlight.reverse (s, assigned) ∧ ¬ Alive s assigned) ∧
      ∃ (s : St (Fin 2) Unit) (assigned : Nat → Option (Fin 2)),
        UringRun (fun _ _ => true) 1 Free dropBeforeWake.reverse (s, assigned) ∧
          ¬ Alive s assigned :=
  ⟨not_alive_of_exec (by decide +kernel), not_alive_of_exec (by decide +kernel)⟩

end Dtact.Fs.Uring
