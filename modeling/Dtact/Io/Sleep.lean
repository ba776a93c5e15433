import Mathlib.Data.Fintype.Basic
import Dtact.Lib.Transition

/-!
# The io worker goes to sleep

Before `run_linux_worker_loop` blocks, after a submission or at the end of an idle iteration, it
sets `is_sleeping` and looks at all queues once more. A poll pushes its request, reads `is_sleeping`
and writes the eventfd if it is set; so does `drop` with a cancellation. Every such access is one
step, and a scan takes a step for each queue.
-/

namespace Dtact.Io.Sleep

open Transition

variable {θ : Type}

/-- Where the worker waits. -/
inductive Path
  | folded
  | idle
deriving DecidableEq

/-- Where the worker is. `pending` looks for entries before it stores `is_sleeping`, `rescan`
after. -/
inductive WorkerPc
  | top
  | arm
  | popQueue (q : Nat)
  | popCancel
  | pending (q : Nat)
  | enter
  | sleep (path : Path)
  | rescan (path : Path) (q : Nat)
  | block (path : Path)
  | awake (path : Path)
  | completions
  | stopped
deriving DecidableEq

/-- Where a thread is, for the request that it has pushed: before the load of `is_sleeping`, or
before the write to the eventfd. A `drop` has none. -/
inductive Pc
  | idle
  | check (request : Option Nat)
  | write (request : Option Nat)
deriving DecidableEq

structure St (θ : Type) where
  queues : Nat → List Nat
  cancelQueue : List Nat
  isSleeping : Bool
  shutdown : Bool
  /-- The writes to the eventfd so far. -/
  eventfd : Nat
  issued : Nat
  thread : θ → Pc
  worker : WorkerPc
  eventfdSubmitted : Bool
  pushedSqe : Bool
  anyPending : Bool
  foldedWait : Bool
  hasCompletions : Bool

def St.new : St θ :=
  { queues := fun _ => [], cancelQueue := [], isSleeping := false, shutdown := false, eventfd := 0,
    issued := 0, thread := fun _ => .idle, worker := .top, eventfdSubmitted := false,
    pushedSqe := false, anyPending := false, foldedWait := false, hasCompletions := false }

/-- `push` is the push of a poll that has a slot, `cancel` that of a `drop`, `run` the next step of
a thread. `worker` is the next step of the worker; `room` says whether the ring takes the read of
the eventfd. `cqe` is a completion, of the read of the eventfd or another one. -/
inductive Act (θ : Type)
  | push (t : θ) (q : Nat)
  | cancel (t : θ) (slotIdx : Nat)
  | shutdown (t : θ)
  | run (t : θ)
  | worker (room : Bool)
  | cqe (ofEventfd : Bool)

/-- The loop, with `n` queues. -/
def runWorker (n : Nat) (room : Bool) (s : St θ) : WorkerPc → Option (St θ)
  | .top =>
    if s.shutdown then some { s with worker := .stopped }
    else some { s with
      worker := .arm, pushedSqe := false, foldedWait := false, hasCompletions := false }
  | .arm =>
    some { s with worker := .popQueue 0, eventfdSubmitted := s.eventfdSubmitted || room }
  | .popQueue q =>
    if q < n then
      match s.queues q with
      | _ :: rest => some { s with queues := Function.update s.queues q rest, pushedSqe := true }
      | [] => some { s with worker := .popQueue (q + 1) }
    else some { s with worker := .popCancel }
  | .popCancel =>
    match s.cancelQueue with
    | _ :: cancelQueue => some { s with cancelQueue, pushedSqe := true }
    | [] => some { s with worker := .pending 0 }
  | .pending q =>
    if q < n then
      match s.queues q with
      | _ :: _ => some { s with worker := .enter, anyPending := true }
      | [] => some { s with worker := .pending (q + 1) }
    else some { s with worker := .enter, anyPending := false }
  | .enter =>
    if s.pushedSqe ∧ s.anyPending = false then
      some { s with worker := .sleep .folded, foldedWait := true }
    else some { s with worker := .completions }
  | .sleep path => some { s with worker := .rescan path 0, isSleeping := true }
  | .rescan path q =>
    if q < n then
      match s.queues q with
      | _ :: _ => some { s with worker := .awake path }
      | [] => some { s with worker := .rescan path (q + 1) }
    else if path = .idle ∧ s.anyPending then some { s with worker := .awake path }
    else some { s with worker := .block path }
  | .block path => some { s with worker := .awake path }
  | .awake .folded => some { s with worker := .completions, isSleeping := false }
  | .awake .idle => some { s with worker := .top, isSleeping := false }
  | .completions =>
    if s.foldedWait = false ∧ s.pushedSqe = false ∧ s.hasCompletions = false then
      some { s with worker := .sleep .idle }
    else some { s with worker := .top }
  | .stopped => none

section

variable [DecidableEq θ]

def St.goto (s : St θ) (t : θ) (pc : Pc) : St θ :=
  { s with thread := Function.update s.thread t pc }

def runThread (t : θ) (s : St θ) : Pc → Option (St θ)
  | .idle => none
  | .check request => some (s.goto t (if s.isSleeping then .write request else .idle))
  | .write _ => some { s.goto t .idle with eventfd := s.eventfd + 1 }

/-- A worker with `n` queues of `capacity` requests: 512 and 256. A poll that finds its queue full
gives its slot back and does not get as far as the check. -/
def step (n capacity : Nat) : Act θ → St θ → Option (St θ)
  | .push t q, s =>
    if s.thread t = .idle ∧ q < n ∧ (s.queues q).length < capacity then
      some { s.goto t (.check (some s.issued)) with
        queues := Function.update s.queues q (s.queues q ++ [s.issued]), issued := s.issued + 1 }
    else none
  | .cancel t slotIdx, s =>
    if s.thread t = .idle then
      some { s.goto t (.check none) with cancelQueue := slotIdx :: s.cancelQueue }
    else none
  | .shutdown t, s =>
    if s.thread t = .idle then some { s.goto t (.write none) with shutdown := true } else none
  | .run t, s => runThread t s (s.thread t)
  | .worker room, s => runWorker n room s s.worker
  | .cqe ofEventfd, s =>
    if s.worker = .completions then
      some { s with
        hasCompletions := true, eventfdSubmitted := s.eventfdSubmitted && !ofEventfd }
    else none

end

/-! ## The property -/

/-- The writes to the eventfd that had been made when the worker last set `is_sleeping`. -/
def upd (a : Act θ) (s : St θ) (written : Nat) : Nat :=
  match a, s.worker with
  | .worker _, .sleep _ => s.eventfd
  | _, _ => written

/-- A poll is between the push of the request and the end of its check. -/
def St.Checking (s : St θ) (request : Nat) : Prop :=
  ∃ t, s.thread t = .check (some request) ∨ s.thread t = .write (some request)

/-- If the worker is blocked and a queue holds a request whose poll has finished its check, the
eventfd has been written since `is_sleeping` was set. -/
def Notified (n : Nat) (s : St θ) (written : Nat) : Prop :=
  ∀ path, s.worker = .block path → ∀ q < n, ∀ request ∈ s.queues q, ¬ s.Checking request →
    written < s.eventfd

section

variable [DecidableEq θ]

abbrev SleepRun (n capacity : Nat) : List (Act θ) → St θ × Nat → Prop :=
  Run (initHist (· = St.new) 0) (withHist (step n capacity) upd) Free

end

/-! ## The invariant -/

def WorkerPc.sleeping : WorkerPc → Bool
  | .rescan _ _ | .block _ | .awake _ => true
  | _ => false

/-- The queues below are those that the worker has found empty since it set `is_sleeping`. -/
def WorkerPc.scanned (n : Nat) : WorkerPc → Nat
  | .rescan _ q => q
  | .block _ => n
  | _ => 0

/-- What is in a queue that the worker has found empty was pushed later, so its poll finds
`is_sleeping` set. -/
structure SleepOk (n : Nat) (s : St θ) (written : Nat) : Prop where
  le : written ≤ s.eventfd
  sleeping : s.worker.sleeping = true → s.isSleeping = true
  late : ∀ q < s.worker.scanned n, ∀ request ∈ s.queues q,
    s.Checking request ∨ written < s.eventfd

variable {n : Nat} {s s' : St θ} {written : Nat}

theorem SleepOk.notified (hok : SleepOk n s written) : Notified n s written := by
  intro path hpc q hq request hmem hdone
  refine (hok.late q ?_ request hmem).resolve_left hdone
  rw [hpc]
  exact hq

/-- The worker is not between the store and the end of its wait. -/
theorem SleepOk.of_awake (hle : written ≤ s.eventfd) (hsleeping : s.worker.sleeping = false)
    (hscanned : s.worker.scanned n = 0) : SleepOk n s written := by
  refine ⟨hle, fun h => ?_, fun q hq => ?_⟩
  · cases hsleeping.symm.trans h
  · rw [hscanned] at hq
    exact absurd hq q.not_lt_zero

/-- The worker finds a queue empty, blocks, or comes back. -/
theorem SleepOk.move (hok : SleepOk n s written) {pc : WorkerPc}
    (hsleeping : s.worker.sleeping = true)
    (hscanned : ∀ q < pc.scanned n, q < s.worker.scanned n ∨ s.queues q = []) :
    SleepOk n { s with worker := pc } written := by
  refine ⟨hok.le, fun _ => hok.sleeping hsleeping, fun q hq request hmem => ?_⟩
  rcases hscanned q hq with hlt | hempty
  · exact hok.late q hlt request hmem
  · simp only [hempty] at hmem
    cases hmem

theorem SleepOk.runWorker (hok : SleepOk n s written) {room : Bool}
    (hst : runWorker n room s s.worker = some s') :
    SleepOk n s' (upd (.worker room : Act θ) s written) := by
  generalize hpc : s.worker = pc at hst
  cases pc with
  | rescan path q =>
    have hsleeping : s.worker.sleeping = true := by rw [hpc]; rfl
    have hscanned : s.worker.scanned n = q := by rw [hpc]; rfl
    simp only [Sleep.runWorker] at hst
    simp only [upd, hpc]
    split at hst
    · split at hst
      · cases hst
        exact hok.move hsleeping fun i hi => absurd hi i.not_lt_zero
      · next hempty =>
        cases hst
        refine hok.move hsleeping fun i hi => ?_
        rcases Nat.lt_succ_iff_lt_or_eq.mp hi with hi | rfl
        · exact .inl (hscanned ▸ hi)
        · exact .inr hempty
    · next hn =>
      split at hst
      · cases hst
        exact hok.move hsleeping fun i hi => absurd hi i.not_lt_zero
      · cases hst
        refine hok.move hsleeping fun i hi => .inl ?_
        have hi' : i < n := hi
        omega
  | block path =>
    have hsleeping : s.worker.sleeping = true := by rw [hpc]; rfl
    cases hst
    simp only [upd, hpc]
    exact hok.move hsleeping fun i hi => absurd hi i.not_lt_zero
  | sleep path =>
    cases hst
    simp only [upd, hpc]
    exact ⟨le_rfl, fun _ => rfl, fun q hq => absurd hq q.not_lt_zero⟩
  | awake path =>
    simp only [upd, hpc]
    cases path <;> cases hst <;> exact .of_awake hok.le rfl rfl
  | top | arm | popQueue | popCancel | pending | enter | completions | stopped =>
    simp only [Sleep.runWorker] at hst
    simp only [upd, hpc]
    repeat' split at hst
    all_goals cases hst
    all_goals
      refine .of_awake hok.le ?_ ?_
      · simp [hpc, WorkerPc.sleeping]
      · simp [hpc, WorkerPc.scanned]

section

variable [DecidableEq θ] {t : θ} {request : Nat}

theorem checking_goto {pc : Pc}
    (hpc : s.thread t ≠ .check (some request) ∧ s.thread t ≠ .write (some request))
    (h : s.Checking request) : (s.goto t pc).Checking request := by
  obtain ⟨u, hu⟩ := h
  have hne : u ≠ t := by
    rintro rfl
    exact hu.elim hpc.1 hpc.2
  exact ⟨u, by simpa only [St.goto, Function.update_of_ne hne] using hu⟩

section

variable (hok : SleepOk n s written)

include hok

theorem SleepOk.run (hst : runThread t s (s.thread t) = some s') : SleepOk n s' written := by
  generalize hpc : s.thread t = pc at hst
  cases pc with
  | idle =>
    cases hst
  | check request =>
    cases hst
    refine ⟨hok.le, hok.sleeping, fun q hq k hmem => (hok.late q hq k hmem).imp_left fun hk => ?_⟩
    -- The queue was scanned, so the worker has set the flag.
    have hsleeping : s.isSleeping = true := by
      refine hok.sleeping ?_
      have hq' : q < s.worker.scanned n := hq
      cases hw : s.worker <;> rw [hw] at hq' <;> first | rfl | exact absurd hq' q.not_lt_zero
    rw [if_pos hsleeping]
    by_cases heq : request = some k
    · exact ⟨t, .inr (by rw [heq]; exact Function.update_self _ _ _)⟩
    · exact checking_goto (by simp [hpc, heq]) hk
  | write request =>
    cases hst
    have hlt : written < s.eventfd + 1 := Nat.lt_succ_of_le hok.le
    exact ⟨hlt.le, hok.sleeping, fun _ _ _ _ => .inr hlt⟩

theorem SleepOk.begin (hidle : s.thread t = .idle) {pc : Pc} : SleepOk n (s.goto t pc) written :=
  ⟨hok.le, hok.sleeping, fun q hq request hmem =>
    (hok.late q hq request hmem).imp_left (checking_goto (by simp [hidle]))⟩

theorem SleepOk.push {q : Nat} (hidle : s.thread t = .idle) :
    SleepOk n { s.goto t (.check (some s.issued)) with
      queues := Function.update s.queues q (s.queues q ++ [s.issued])
      issued := s.issued + 1 } written := by
  have hbegin : SleepOk n (s.goto t (.check (some s.issued))) written := hok.begin hidle
  refine ⟨hok.le, hok.sleeping, fun i hi request hmem => ?_⟩
  rcases eq_or_ne i q with rfl | hne
  · simp only [Function.update_self, List.mem_append, List.mem_singleton] at hmem
    rcases hmem with hmem | rfl
    · exact hbegin.late i hi request hmem
    · exact .inl ⟨t, .inl (Function.update_self _ _ _)⟩
  · simp only [Function.update_of_ne hne] at hmem
    exact hbegin.late i hi request hmem

theorem SleepOk.step {capacity : Nat} {a : Act θ} (hst : step n capacity a s = some s') :
    SleepOk n s' (upd a s written) := by
  cases a with
  | push t q =>
    simp only [Sleep.step] at hst
    split_ifs at hst with hpush
    cases hst
    exact hok.push hpush.1
  | cancel t slotIdx | shutdown t =>
    simp only [Sleep.step] at hst
    split_ifs at hst with hidle
    cases hst
    exact { hok.begin hidle with }
  | run t => exact hok.run hst
  | worker room => exact hok.runWorker hst
  | cqe ofEventfd =>
    simp only [Sleep.step] at hst
    split_ifs at hst
    cases hst
    exact { hok with }

end

/-- The worker never sleeps on a request whose poll has gone by. -/
theorem blocked_worker_notified (n capacity : Nat) (tr : List (Act θ)) (s : St θ) (written : Nat)
    (hrun : SleepRun n capacity tr (s, written)) : Notified n s written := by
  have hok : SleepOk n s written := by
    refine hrun.hist_invariant (I := SleepOk n) ?_ (fun _ _ _ _ hok _ hst => hok.step hst)
    rintro s rfl
    exact .of_awake le_rfl rfl rfl
  exact hok.notified

end

/-! ## A run -/

/-- With two queues: the worker takes the first request of a thread and goes on to the folded wait.
It has just looked at the second queue when another request is pushed there. -/
def pushLate : List (Act (Fin 1)) :=
  [.push 0 1, .run 0] ++ .replicate 14 (.worker true) ++ [.push 0 1, .worker true, .run 0, .run 0]

theorem blocked_worker_notified_pushLate : ∃ (s : St (Fin 1)) (written : Nat),
    SleepRun 2 256 pushLate.reverse (s, written) ∧ s.worker = .block .folded ∧
      s.queues 1 = [1] ∧ s.thread 0 = .idle ∧ written < s.eventfd := by
  obtain ⟨⟨s, written⟩, hrun, hpc, hqueue, hidle⟩ : ∃ p, SleepRun 2 256 pushLate.reverse p ∧
      p.1.worker = .block .folded ∧ p.1.queues 1 = [1] ∧ p.1.thread 0 = .idle :=
    Run.exists_of_exec pushLate (St.new, 0) ⟨rfl, rfl⟩ (by decide)
  refine ⟨s, written, hrun, hpc, hqueue, hidle, ?_⟩
  refine blocked_worker_notified 2 256 _ s written hrun _ hpc 1 (by decide) 1 ?_ ?_
  · rw [show s.queues 1 = [1] from hqueue]
    exact List.mem_singleton_self 1
  · rintro ⟨t, ht⟩
    obtain rfl := Subsingleton.elim t 0
    rw [show s.thread 0 = .idle from hidle] at ht
    rcases ht with ht | ht <;> cases ht

/-! ## Cancellations -/

structure Hist (θ : Type) where
  /-- The writes to the eventfd that had been made when the worker last set `is_sleeping`. -/
  written : Nat
  /-- For each entry of `cancel_queue`, the thread whose `drop` has pushed it, or `none` if that
  `drop` has returned. -/
  drops : List (Option θ)

/-- `cancel_queue` holds a slot whose `drop` has returned. -/
def Hist.Returned (h : Hist θ) : Prop := none ∈ h.drops

/-- If the worker is blocked and `cancel_queue` holds a slot whose `drop` has returned, the eventfd
has been written since `is_sleeping` was set. -/
def Noticed (s : St θ) (h : Hist θ) : Prop :=
  ∀ path, s.worker = .block path → h.Returned → h.written < s.eventfd

/-- The next step is `is_sleeping.store(true)`. -/
def WorkerPc.announcing : WorkerPc → Bool
  | .sleep _ => true
  | _ => false

/-- No slot whose `drop` has returned is in `cancel_queue` when the worker sets `is_sleeping`. -/
def Drained (p : St θ × Hist θ) : Act θ → Prop
  | .worker _ => p.1.worker.announcing = true → ¬ p.2.Returned
  | .push _ _ | .cancel _ _ | .shutdown _ | .run _ | .cqe _ => True

instance [DecidableEq θ] (p : St θ × Hist θ) : (a : Act θ) → Decidable (Drained p a)
  | .worker _ => inferInstanceAs (Decidable (_ = true → none ∉ p.2.drops))
  | .push _ _ | .cancel _ _ | .shutdown _ | .run _ | .cqe _ => inferInstanceAs (Decidable True)

section

variable [DecidableEq θ]

/-- The call of `t` returns. -/
def release (t : θ) (drops : List (Option θ)) : List (Option θ) :=
  drops.map fun d => if d = some t then none else d

def updDrops (a : Act θ) (s : St θ) (drops : List (Option θ)) : List (Option θ) :=
  match a with
  | .cancel t _ => some t :: drops
  | .run t =>
    match s.thread t with
    | .idle => drops
    | .check _ => if s.isSleeping then drops else release t drops
    | .write _ => release t drops
  | .worker _ => if s.worker = .popCancel then drops.tail else drops
  | .push _ _ | .shutdown _ | .cqe _ => drops

def updHist (a : Act θ) (s : St θ) (h : Hist θ) : Hist θ :=
  ⟨upd a s h.written, updDrops a s h.drops⟩

abbrev DropRun (n capacity : Nat) (ok : St θ × Hist θ → Act θ → Prop) :
    List (Act θ) → St θ × Hist θ → Prop :=
  Run (initHist (· = St.new) ⟨0, []⟩) (withHist (step n capacity) updHist) ok

/-- While the worker sleeps, a `drop` that has returned has found the flag set and written. -/
structure DropOk (n : Nat) (s : St θ) (h : Hist θ) : Prop where
  sleep : SleepOk n s h.written
  length : h.drops.length = s.cancelQueue.length
  calls : ∀ t, some t ∈ h.drops → s.thread t = .check none ∨ s.thread t = .write none
  late : s.worker.sleeping = true → h.Returned → h.written < s.eventfd

variable {h : Hist θ} {t u : θ} {drops : List (Option θ)}

theorem length_release : (release t drops).length = drops.length := List.length_map _

theorem some_mem_release : some u ∈ release t drops ↔ some u ∈ drops ∧ u ≠ t := by
  simp only [release, List.mem_map]
  constructor
  · rintro ⟨d, hd, heq⟩
    split_ifs at heq with hdt
    exact ⟨heq ▸ hd, fun hut => hdt (heq.trans (congrArg some hut))⟩
  · rintro ⟨hmem, hne⟩
    exact ⟨some u, hmem, if_neg fun heq => hne (Option.some.inj heq)⟩

section

variable (hok : DropOk n s h)

include hok

theorem DropOk.begin (hidle : s.thread t = .idle) {pc : Pc} :
    ∀ u, some u ∈ h.drops → (s.goto t pc).thread u = .check none ∨
      (s.goto t pc).thread u = .write none := by
  intro u hmem
  have hne : u ≠ t := by
    rintro rfl
    simpa [hidle] using hok.calls u hmem
  simp only [St.goto, Function.update_of_ne hne]
  exact hok.calls u hmem

theorem DropOk.run (hst : runThread t s (s.thread t) = some s') :
    DropOk n s' (updHist (.run t) s h) := by
  have hsleep : SleepOk n s' h.written := hok.sleep.run hst
  have hother {pc : Pc} : ∀ u, some u ∈ release t h.drops →
      (s.goto t pc).thread u = .check none ∨ (s.goto t pc).thread u = .write none := by
    intro u hmem
    obtain ⟨hmem, hne⟩ := some_mem_release.mp hmem
    simp only [St.goto, Function.update_of_ne hne]
    exact hok.calls u hmem
  generalize hpc : s.thread t = pc at hst
  cases pc with
  | idle =>
    cases hst
  | check request =>
    cases hst
    cases hflag : s.isSleeping with
    | true =>
      rw [if_pos hflag] at hsleep
      simp only [updHist, upd, updDrops, hpc, hflag, if_true]
      refine ⟨hsleep, hok.length, fun u hmem => ?_, hok.late⟩
      rcases eq_or_ne u t with rfl | hne
      · have hnone : request = none := by simpa [hpc] using hok.calls u hmem
        exact .inr (hnone ▸ Function.update_self _ _ _)
      · simp only [St.goto, Function.update_of_ne hne]
        exact hok.calls u hmem
    | false =>
      rw [if_neg (Bool.eq_false_iff.mp hflag)] at hsleep
      simp only [updHist, upd, updDrops, hpc, hflag, Bool.false_eq_true, if_false]
      refine ⟨hsleep, length_release.trans hok.length, hother, fun hsleeping => ?_⟩
      cases hflag.symm.trans (hok.sleep.sleeping hsleeping)
  | write request =>
    cases hst
    simp only [updHist, upd, updDrops, hpc]
    exact ⟨hsleep, length_release.trans hok.length, hother,
      fun _ _ => Nat.lt_succ_of_le hok.sleep.le⟩

theorem DropOk.move {room : Bool} (hpop : s.worker ≠ .popCancel)
    (hsleep : SleepOk n s' (updHist (.worker room) s h).written)
    (hqueue : s'.cancelQueue = s.cancelQueue) (hthread : s'.thread = s.thread)
    (hlate : s'.worker.sleeping = true → h.Returned → s.worker.sleeping = true ∧
      s'.eventfd = s.eventfd ∧ upd (.worker room) s h.written = h.written) :
    DropOk n s' (updHist (.worker room) s h) := by
  have hdrops : (updHist (.worker room) s h).drops = h.drops := if_neg hpop
  refine ⟨hsleep, ?_, fun t hmem => ?_, fun hsleeping hreturned => ?_⟩
  · rw [hdrops, hqueue]
    exact hok.length
  · rw [hthread]
    exact hok.calls t (hdrops ▸ hmem)
  · rw [Hist.Returned, hdrops] at hreturned
    obtain ⟨hbefore, heventfd, hwritten⟩ := hlate hsleeping hreturned
    rw [heventfd]
    exact hwritten.trans_lt (hok.late hbefore hreturned)

theorem DropOk.runWorker {room : Bool} (hdrained : Drained (s, h) (.worker room))
    (hst : runWorker n room s s.worker = some s') : DropOk n s' (updHist (.worker room) s h) := by
  have hsleep := hok.sleep.runWorker hst
  generalize hpc : s.worker = pc at hst
  cases pc with
  | popCancel =>
    have hdrops : (updHist (.worker room) s h).drops = h.drops.tail := if_pos hpc
    simp only [Sleep.runWorker] at hst
    split at hst
    · next slotIdx rest hqueue =>
      cases hst
      refine ⟨hsleep, ?_, fun t hmem => hok.calls t (List.mem_of_mem_tail (hdrops ▸ hmem)), ?_⟩
      · rw [hdrops, List.length_tail, hok.length, hqueue]
        rfl
      · intro hsleeping
        simp [hpc, WorkerPc.sleeping] at hsleeping
    · next hqueue =>
      cases hst
      have hnil : h.drops = [] :=
        List.length_eq_zero_iff.mp (hok.length.trans (by rw [hqueue]; rfl))
      rw [hnil] at hdrops
      refine ⟨hsleep, ?_, fun t hmem => ?_, fun hsleeping => ?_⟩
      · rw [hdrops, hqueue]
        rfl
      · rw [hdrops] at hmem
        cases hmem
      · cases hsleeping
  | sleep path =>
    refine hok.move (by simp [hpc]) hsleep ?_ ?_ fun _ hreturned =>
      absurd hreturned (hdrained (by rw [hpc]; rfl))
    all_goals
      cases hst
      rfl
  | rescan path q =>
    have hsleeping : s.worker.sleeping = true := by rw [hpc]; rfl
    refine hok.move (by simp [hpc]) hsleep ?_ ?_ fun _ _ => ⟨hsleeping, ?_, by simp [upd, hpc]⟩
    all_goals
      simp only [Sleep.runWorker] at hst
      repeat' split at hst
      all_goals cases hst; rfl
  | block path =>
    have hsleeping : s.worker.sleeping = true := by rw [hpc]; rfl
    refine hok.move (by simp [hpc]) hsleep ?_ ?_ fun _ _ => ⟨hsleeping, ?_, by simp [upd, hpc]⟩
    all_goals
      cases hst
      rfl
  | awake path =>
    cases path <;> cases hst <;>
      exact hok.move (by simp [hpc]) hsleep rfl rfl fun hsleeping => by cases hsleeping
  | top | arm | popQueue | pending | enter | completions | stopped =>
    simp only [Sleep.runWorker] at hst
    repeat' split at hst
    all_goals cases hst
    all_goals
      refine hok.move (by simp [hpc]) hsleep rfl rfl fun hsleeping => ?_
      simp [hpc, WorkerPc.sleeping] at hsleeping

theorem DropOk.step {capacity : Nat} {a : Act θ} (hdrained : Drained (s, h) a)
    (hst : step n capacity a s = some s') : DropOk n s' (updHist a s h) := by
  have hsleep := hok.sleep.step hst
  cases a with
  | push t q =>
    simp only [Sleep.step] at hst
    split_ifs at hst with hpush
    cases hst
    exact ⟨hsleep, hok.length, hok.begin hpush.1, hok.late⟩
  | cancel t slotIdx =>
    simp only [Sleep.step] at hst
    split_ifs at hst with hidle
    cases hst
    refine ⟨hsleep, congrArg (· + 1) hok.length, fun u hmem => ?_, fun hsleeping hreturned => ?_⟩
    · rcases List.mem_cons.mp hmem with heq | hmem
      · cases heq
        exact .inl (Function.update_self _ _ _)
      · exact hok.begin hidle u hmem
    · have hmem := (List.mem_cons.mp hreturned).resolve_left (Option.some_ne_none t).symm
      exact hok.late hsleeping hmem
  | shutdown t =>
    simp only [Sleep.step] at hst
    split_ifs at hst with hidle
    cases hst
    exact ⟨hsleep, hok.length, hok.begin hidle, hok.late⟩
  | run t => exact hok.run hst
  | worker room => exact hok.runWorker hdrained hst
  | cqe ofEventfd =>
    simp only [Sleep.step] at hst
    split_ifs at hst
    cases hst
    exact ⟨hsleep, hok.length, hok.calls, hok.late⟩

end

/-- The worker never sleeps on a cancellation whose `drop` has gone by, if none is there when it
sets `is_sleeping`. -/
theorem cancellation_noticed (n capacity : Nat) (tr : List (Act θ)) (s : St θ) (h : Hist θ)
    (hrun : DropRun n capacity Drained tr (s, h)) :
    h.drops.length = s.cancelQueue.length ∧ Noticed s h := by
  have hok : DropOk n s h := by
    refine hrun.hist_invariant (I := DropOk n) ?_
      (fun _ _ _ _ hok hdrained hst => hok.step hdrained hst)
    rintro s rfl
    exact ⟨.of_awake le_rfl rfl rfl, rfl, by simp, by simp [Hist.Returned]⟩
  refine ⟨hok.length, fun path hpc hreturned => hok.late ?_ hreturned⟩
  rw [hpc]
  rfl

end

/-- With one queue: a future is dropped just after an idle worker has set `is_sleeping`. -/
def dropInTime : List (Act (Fin 1)) :=
  .replicate 10 (.worker true) ++ [.cancel 0 7, .run 0, .run 0] ++ .replicate 2 (.worker true)

theorem cancellation_noticed_dropInTime : ∃ (s : St (Fin 1)) (h : Hist (Fin 1)),
    DropRun 1 256 Drained dropInTime.reverse (s, h) ∧ s.worker = .block .idle ∧ h.drops = [none] ∧
      h.written < s.eventfd := by
  obtain ⟨⟨s, h⟩, hrun, hblock, hdrops⟩ : ∃ p : St (Fin 1) × Hist (Fin 1),
      DropRun 1 256 Drained dropInTime.reverse p ∧ p.1.worker = .block .idle ∧
        p.2.drops = [none] :=
    Run.exists_of_guarded dropInTime (St.new, ⟨0, []⟩) ⟨rfl, rfl⟩ (by decide +kernel)
  have hreturned : h.Returned := by
    rw [Hist.Returned, show h.drops = [none] from hdrops]
    exact List.mem_singleton_self none
  exact ⟨s, h, hrun, hblock, hdrops, (cancellation_noticed 1 256 _ s h hrun).2 _ hblock hreturned⟩

/-- An idle worker has looked at `cancel_queue` and not yet set `is_sleeping` when a future is
dropped; then it blocks. -/
def dropLate : List (Act (Fin 1)) :=
  .replicate 516 (.worker true) ++ [.cancel 0 7, .run 0] ++ .replicate 1029 (.worker true)

/-- The second look does not cover `cancel_queue`. -/
theorem late_cancellation_missed : ∃ (s : St (Fin 1)) (h : Hist (Fin 1)),
    DropRun 512 256 Free dropLate.reverse (s, h) ∧ s.worker = .block .idle ∧
      s.cancelQueue = [7] ∧ h.drops = [none] ∧ s.eventfd = h.written := by
  obtain ⟨⟨s, h⟩, hrun, hblock⟩ : ∃ p : St (Fin 1) × Hist (Fin 1),
      DropRun 512 256 Free dropLate.reverse p ∧ p.1.worker = .block .idle ∧
        p.1.cancelQueue = [7] ∧ p.2.drops = [none] ∧ p.1.eventfd = p.2.written :=
    Run.exists_of_exec dropLate (St.new, ⟨0, []⟩) ⟨rfl, rfl⟩ (by decide +kernel)
  exact ⟨s, h, hrun, hblock⟩

end Dtact.Io.Sleep
