import Dtact.Lib.Transition
import Dtact.Io.Threads

/-!
# Who pushes to the submission queues

Every io worker has 512 queues, each for a single producer. A poll pushes to the queue with the
index of the thread's local allocator, and to queue 0 if the thread has none.

Result: `queue_single_producer`. When only threads with a number below 512 and no io-worker threads
push, no two threads push to one queue.
-/

namespace Dtact.Io.Producers

open Transition Threads

variable {θ : Type}

structure St (θ : Type) where
  nextId : Nat
  thread : θ → Life

def St.new : St θ := ⟨0, fun _ => .unborn⟩

/-- `readId` is a call of `get_local_thread_id`, `init` one of `get_or_init_local_allocator` by
`allocate_buffer` or `free_buffer`, `push` a poll that pushes to a queue of io worker `w`. -/
inductive Act (θ : Type)
  | start (t : θ)
  | startWorker (t : θ) (workerIdx : Nat)
  | exit (t : θ)
  | readId (t : θ)
  | init (t : θ)
  | push (t : θ) (w : Nat)

/-- `get_or_init_local_allocator().unwrap_or(0)` -/
def qIdx (thread : Thread) (nextId : Nat) : Nat :=
  (thread.getOrInitLocalAllocator nextId).1.index.getD 0

section

variable [DecidableEq θ]

def St.setThread (s : St θ) (t : θ) (p : Thread × Nat) : St θ :=
  ⟨p.2, Function.update s.thread t (.running p.1)⟩

/-- An index of 512 or more is out of bounds and panics. -/
def step : Act θ → St θ → Option (St θ)
  | .start t, s => if s.thread t = .unborn then some (s.setThread t (.new, s.nextId)) else none
  | .startWorker t workerIdx, s =>
    if s.thread t = .unborn then some (s.setThread t (.ioWorker workerIdx, s.nextId)) else none
  | .exit t, s =>
    match s.thread t with
    | .running _ => some { s with thread := Function.update s.thread t .exited }
    | .unborn | .exited => none
  | .readId t, s =>
    match s.thread t with
    | .running thread =>
      some (s.setThread t (thread.numbered s.nextId, thread.nextId s.nextId))
    | .unborn | .exited => none
  | .init t, s =>
    match s.thread t with
    | .running thread => some (s.setThread t (thread.getOrInitLocalAllocator s.nextId))
    | .unborn | .exited => none
  | .push t _, s =>
    match s.thread t with
    | .running thread =>
      if qIdx thread s.nextId < 512 then
        some (s.setThread t (thread.getOrInitLocalAllocator s.nextId))
      else none
    | .unborn | .exited => none

end

/-! ## The property -/

/-- A push: the thread, the io worker and the index of the queue. -/
structure Push (θ : Type) where
  thread : θ
  worker : Nat
  queue : Nat
deriving DecidableEq

def upd (a : Act θ) (s : St θ) (pushes : List (Push θ)) : List (Push θ) :=
  match a with
  | .push t w =>
    match s.thread t with
    | .running thread => ⟨t, w, qIdx thread s.nextId⟩ :: pushes
    | .unborn | .exited => pushes
  | .start _ | .startWorker _ _ | .exit _ | .readId _ | .init _ => pushes

/-- No queue is pushed to by two threads, whether they are alive at the same time or not. -/
def SingleProducer (pushes : List (Push θ)) : Prop :=
  ∀ a ∈ pushes, ∀ b ∈ pushes, a.worker = b.worker → a.queue = b.queue → a.thread = b.thread

/-! ## The condition -/

/-- The number of the thread is below 512, and an allocator that it has already was made for this
number. -/
structure OwnNumber (thread : Thread) (nextId : Nat) : Prop where
  lt : thread.getLocalThreadId nextId < 512
  own : ∀ alloc ∈ thread.localAllocator, thread.id = some alloc.threadIdx

def Numbered (s : St θ) : Act θ → Prop
  | .push t _ =>
    match s.thread t with
    | .running thread => OwnNumber thread s.nextId ∧ s.nextId < usizeMod
    | .unborn | .exited => True
  | .start _ | .startWorker _ _ | .exit _ | .readId _ | .init _ => True

abbrev ProducersRun [DecidableEq θ] (ok : St θ → Act θ → Prop) :
    List (Act θ) → St θ × List (Push θ) → Prop :=
  Run (initHist (· = St.new) []) (withHist step upd) fun p a => ok p.1 a

/-! ## The invariant -/

/-- `number` are the numbers that the threads have got. -/
structure Inv (number : θ → Option Nat) (s : St θ) (pushes : List (Push θ)) : Prop where
  thread : ∀ t thread, s.thread t = .running thread → thread.id = number t
  unborn : ∀ t, s.thread t = .unborn → number t = none
  below : ∀ t k, number t = some k → k < s.nextId
  unique : s.nextId ≤ usizeMod → ∀ t t' k, number t = some k → number t' = some k → t = t'
  push : ∀ a ∈ pushes, number a.thread = some a.queue
  single : SingleProducer pushes

/-- What asking for the number or for the allocator does to the number and the counter. -/
def Asks (thread : Thread) (nextId : Nat) (p : Thread × Nat) : Prop :=
  p.1.id = thread.id ∧ p.2 = nextId ∨
    thread.id = none ∧ p.1.id = some (nextId % usizeMod) ∧ p.2 = nextId + 1

theorem asks_numbered (thread : Thread) (nextId : Nat) :
    Asks thread nextId (thread.numbered nextId, thread.nextId nextId) := by
  cases hid : thread.id with
  | none =>
    right
    simp [Thread.numbered, Thread.getLocalThreadId, Thread.nextId, hid]
  | some id =>
    left
    simp [Thread.numbered, Thread.getLocalThreadId, Thread.nextId, hid]

theorem asks_getOrInit (thread : Thread) (nextId : Nat) :
    Asks thread nextId (thread.getOrInitLocalAllocator nextId) := by
  unfold Thread.getOrInitLocalAllocator
  split
  · exact .inl ⟨rfl, rfl⟩
  · split
    · exact asks_numbered thread nextId
    · exact asks_numbered thread nextId

/-- The queue of a thread with a number below 512 is its own. -/
theorem OwnNumber.qIdx {thread : Thread} {nextId : Nat} (hown : OwnNumber thread nextId) :
    (thread.getOrInitLocalAllocator nextId).1.id = some (qIdx thread nextId) := by
  unfold Producers.qIdx Thread.getOrInitLocalAllocator
  split
  · next alloc halloc =>
    rw [hown.own alloc halloc]
    simp [Thread.index, halloc]
  · rw [if_pos hown.lt]
    rfl

section

variable [DecidableEq θ] {number : θ → Option Nat} {s s' : St θ} {pushes : List (Push θ)} {t : θ}
  {thread : Thread}

theorem thread_setThread (s : St θ) (t : θ) (p : Thread × Nat) :
    (s.setThread t p).thread t = .running p.1 := Function.update_self _ _ _

theorem thread_setThread_of_ne (s : St θ) {t u : θ} (p : Thread × Nat) (hne : u ≠ t) :
    (s.setThread t p).thread u = s.thread u := Function.update_of_ne hne _ _

/-- A running thread asks, and a thread that starts has not asked. -/
theorem Inv.asks (hinv : Inv number s pushes) {p : Thread × Nat} (hnumber : number t = thread.id)
    (hasks : Asks thread s.nextId p) :
    Inv (Function.update number t p.1.id) (s.setThread t p) pushes := by
  have hthread (u : θ) (th : Thread) (hu : (s.setThread t p).thread u = .running th) :
      th.id = Function.update number t p.1.id u := by
    rcases eq_or_ne u t with rfl | hne
    · rw [thread_setThread] at hu
      cases hu
      rw [Function.update_self]
    · rw [thread_setThread_of_ne s p hne] at hu
      rw [Function.update_of_ne hne]
      exact hinv.thread u th hu
  have hunborn (u : θ) (hu : (s.setThread t p).thread u = .unborn) :
      Function.update number t p.1.id u = none := by
    rcases eq_or_ne u t with rfl | hne
    · rw [thread_setThread] at hu
      cases hu
    · rw [thread_setThread_of_ne s p hne] at hu
      rw [Function.update_of_ne hne]
      exact hinv.unborn u hu
  rcases hasks with ⟨hid, hnext⟩ | ⟨hnone, hid, hnext⟩
  · -- The thread had its number, or did not need one.
    have hsame : Function.update number t p.1.id = number := by
      rw [hid, ← hnumber, Function.update_eq_self]
    rw [hsame] at hthread hunborn ⊢
    refine ⟨hthread, hunborn, fun u k hu => ?_, fun hle => ?_, hinv.push, hinv.single⟩
    · exact (hinv.below u k hu).trans_eq hnext.symm
    · exact hinv.unique (hnext ▸ hle)
  · have hother {u : θ} {k : Nat} (hne : u ≠ t) (hu : Function.update number t p.1.id u = some k) :
        number u = some k := by rwa [Function.update_of_ne hne] at hu
    have hself {k : Nat} (hk : Function.update number t p.1.id t = some k) :
        k = s.nextId % usizeMod := by
      rw [Function.update_self, hid] at hk
      exact (Option.some.inj hk).symm
    refine ⟨hthread, hunborn, fun u k hu => ?_, fun hle u u' k hu hu' => ?_, fun a ha => ?_,
      hinv.single⟩
    · change k < p.2
      rw [hnext]
      rcases eq_or_ne u t with rfl | hne
      · rw [hself hu]
        exact Nat.lt_succ_of_le (Nat.mod_le _ _)
      · exact Nat.lt_succ_of_lt (hinv.below u k (hother hne hu))
    · -- The new number is larger than those given out before.
      have hle' : s.nextId + 1 ≤ usizeMod := hnext ▸ hle
      have hnew : s.nextId % usizeMod = s.nextId := Nat.mod_eq_of_lt hle'
      rcases eq_or_ne u t with rfl | hne <;> rcases eq_or_ne u' u with rfl | hne'
      · rfl
      · have hlt := hinv.below u' k (hother hne' hu')
        rw [hself hu, hnew] at hlt
        exact absurd hlt (Nat.lt_irrefl _)
      · rfl
      · rcases eq_or_ne u' t with rfl | hne''
        · have hlt := hinv.below u k (hother hne hu)
          rw [hself hu', hnew] at hlt
          exact absurd hlt (Nat.lt_irrefl _)
        · exact hinv.unique (Nat.le_of_succ_le hle') u u' k (hother hne hu) (hother hne'' hu')
    · have hne : a.thread ≠ t := by
        rintro rfl
        cases (hnumber.trans hnone).symm.trans (hinv.push a ha)
      rw [Function.update_of_ne hne]
      exact hinv.push a ha

omit [DecidableEq θ] in
theorem Inv.record (hinv : Inv number s pushes) {q w : Nat} (hq : number t = some q)
    (hle : s.nextId ≤ usizeMod) : Inv number s (⟨t, w, q⟩ :: pushes) := by
  have hpush : ∀ a ∈ (⟨t, w, q⟩ : Push θ) :: pushes, number a.thread = some a.queue := by
    intro a ha
    rcases List.mem_cons.mp ha with rfl | ha
    · exact hq
    · exact hinv.push a ha
  refine { hinv with
    push := hpush
    single := fun a ha b hb _ heq => ?_ }
  exact hinv.unique hle _ _ a.queue (hpush a ha) (heq ▸ hpush b hb)

theorem Inv.step (hinv : Inv number s pushes) {a : Act θ} (hok : Numbered s a)
    (hst : step a s = some s') : ∃ number', Inv number' s' (upd a s pushes) := by
  cases a with
  | start t | startWorker t workerIdx =>
    simp only [Producers.step] at hst
    split_ifs at hst with hunborn
    cases hst
    have hnumber : number t = Thread.new.id := hinv.unborn t hunborn
    exact ⟨_, hinv.asks hnumber (.inl ⟨rfl, rfl⟩)⟩
  | exit t =>
    simp only [Producers.step] at hst
    split at hst
    · cases hst
      refine ⟨number, { hinv with thread := fun u th hu => ?_, unborn := fun u hu => ?_ }⟩
      · rcases eq_or_ne u t with rfl | hne
        · simp at hu
        · exact hinv.thread u th (by simpa [hne] using hu)
      · rcases eq_or_ne u t with rfl | hne
        · simp at hu
        · exact hinv.unborn u (by simpa [hne] using hu)
    · cases hst
    · cases hst
  | readId t =>
    simp only [Producers.step] at hst
    split at hst
    · next thread hrunning =>
      cases hst
      exact ⟨_, hinv.asks (hinv.thread t thread hrunning).symm (asks_numbered _ _)⟩
    · cases hst
    · cases hst
  | init t =>
    simp only [Producers.step] at hst
    split at hst
    · next thread hrunning =>
      cases hst
      exact ⟨_, hinv.asks (hinv.thread t thread hrunning).symm (asks_getOrInit _ _)⟩
    · cases hst
    · cases hst
  | push t w =>
    simp only [Producers.step] at hst
    split at hst
    · next thread hrunning =>
      split_ifs at hst
      cases hst
      simp only [Numbered, hrunning] at hok
      simp only [upd, hrunning]
      have hasks := asks_getOrInit thread s.nextId
      have hnext : (thread.getOrInitLocalAllocator s.nextId).2 ≤ usizeMod := by
        rcases hasks with ⟨-, hnext⟩ | ⟨-, -, hnext⟩
        · exact hnext.trans_le hok.2.le
        · exact hnext.trans_le hok.2
      refine ⟨_, (hinv.asks (hinv.thread t thread hrunning).symm hasks).record ?_ hnext⟩
      rw [Function.update_self]
      exact hok.1.qIdx
    · cases hst
    · cases hst

/-- Every queue is pushed to by one thread at most. -/
theorem queue_single_producer (tr : List (Act θ)) (s : St θ) (pushes : List (Push θ))
    (hrun : ProducersRun Numbered tr (s, pushes)) : SingleProducer pushes := by
  have hinv : ∃ number, Inv number s pushes := by
    refine hrun.hist_invariant (I := fun s pushes => ∃ number, Inv number s pushes) ?_
      (fun _ _ _ _ ⟨_, hinv⟩ hok hst => hinv.step hok hst)
    rintro s rfl
    refine ⟨fun _ => none, ?_⟩
    constructor <;> simp [St.new, SingleProducer]
  obtain ⟨number, hinv⟩ := hinv
  exact hinv.single

end

/-! ## Runs -/

instance (thread : Thread) (nextId : Nat) : Decidable (OwnNumber thread nextId) :=
  decidable_of_iff (thread.getLocalThreadId nextId < 512 ∧
      ∀ alloc ∈ thread.localAllocator, thread.id = some alloc.threadIdx)
    ⟨fun h => ⟨h.1, h.2⟩, fun h => ⟨h.lt, h.own⟩⟩

instance (s : St θ) : (a : Act θ) → Decidable (Numbered s a)
  | .push t _ =>
    match h : s.thread t with
    | .running thread =>
      decidable_of_iff (OwnNumber thread s.nextId ∧ s.nextId < usizeMod) (by simp [Numbered, h])
    | .unborn | .exited => isTrue (by simp [Numbered, h])
  | .start _ | .startWorker _ _ | .exit _ | .readId _ | .init _ => inferInstanceAs (Decidable True)

def twoThreads : List (Act (Fin 2)) := [.start 0, .start 1, .push 0 0, .push 1 0]

theorem queue_single_producer_twoThreads : ∃ (s : St (Fin 2)) (pushes : List (Push (Fin 2))),
    ProducersRun Numbered twoThreads.reverse (s, pushes) ∧ pushes = [⟨1, 0, 1⟩, ⟨0, 0, 0⟩] ∧
      SingleProducer pushes := by
  obtain ⟨⟨s, pushes⟩, hrun, heq⟩ : ∃ p, ProducersRun Numbered twoThreads.reverse p ∧
      p.2 = [⟨1, 0, 1⟩, ⟨0, 0, 0⟩] :=
    Run.exists_of_guarded twoThreads (St.new, []) ⟨rfl, rfl⟩ (by decide +kernel)
  exact ⟨s, pushes, hrun, heq, queue_single_producer _ s pushes hrun⟩

/-- `n` threads have started and read their numbers. -/
theorem exists_numbered (n : Nat) (hn : n ≤ usizeMod) : ∃ (tr : List (Act Nat)) (s : St Nat),
    ProducersRun Free tr (s, []) ∧ s.nextId = n ∧
      (∀ i < n, s.thread i = .running ⟨some i, none⟩) ∧ ∀ i, n ≤ i → s.thread i = .unborn := by
  induction n with
  | zero => exact ⟨[], St.new, .start ⟨rfl, rfl⟩, rfl, by simp, fun _ _ => rfl⟩
  | succ n ih =>
    obtain ⟨tr, s, hrun, hnext, hrunning, hunborn⟩ := ih (Nat.le_of_succ_le hn)
    have hnumber : n % usizeMod = n := Nat.mod_eq_of_lt hn
    have hstart : step (.start n) s = some (s.setThread n (.new, s.nextId)) :=
      if_pos (hunborn n le_rfl)
    have hread : step (.readId n) (s.setThread n (.new, s.nextId)) =
        some ((s.setThread n (.new, s.nextId)).setThread n (⟨some n, none⟩, n + 1)) := by
      simp [step, St.setThread, Thread.new, Thread.numbered, Thread.getLocalThreadId,
        Thread.nextId, hnext, hnumber]
    have hrun₁ : ProducersRun Free _ (s.setThread n (.new, s.nextId), []) :=
      hrun.next (a := .start n) trivial (by rw [withHist, hstart]; rfl)
    have hrun₂ : ProducersRun Free _
        ((s.setThread n (.new, s.nextId)).setThread n (⟨some n, none⟩, n + 1), []) :=
      hrun₁.next (a := .readId n) trivial (by rw [withHist, hread]; rfl)
    refine ⟨_, _, hrun₂, rfl, fun i hi => ?_, fun i hi => ?_⟩
    · rcases eq_or_ne i n with rfl | hne
      · exact thread_setThread _ _ _
      · rw [thread_setThread_of_ne _ _ hne, thread_setThread_of_ne _ _ hne]
        exact hrunning i (by omega)
    · have hne : i ≠ n := by omega
      rw [thread_setThread_of_ne _ _ hne, thread_setThread_of_ne _ _ hne]
      exact hunborn i (by omega)

/-- Two threads that run have pushed to queue 0 of one io worker: thread 0 and the thread with
number 512. -/
theorem queue_two_producers : ∃ (tr : List (Act Nat)) (s : St Nat) (pushes : List (Push Nat)),
    ProducersRun Free tr (s, pushes) ∧ ⟨0, 0, 0⟩ ∈ pushes ∧ ⟨512, 0, 0⟩ ∈ pushes ∧
      (∃ thread, s.thread 0 = .running thread) ∧ ∃ thread, s.thread 512 = .running thread := by
  obtain ⟨tr, s, hrun, hnext, hrunning, -⟩ := exists_numbered 513 (by decide)
  have hthread := hrunning 0 (by decide)
  have hpush : withHist step upd (.push 0 0) (s, []) =
      some (s.setThread 0 (⟨some 0, some ⟨0, []⟩⟩, 513), [⟨0, 0, 0⟩]) := by
    simp only [withHist, step, upd, hthread, hnext]
    rfl
  -- The number 512 gets no allocator.
  have hthread' : (s.setThread 0 (⟨some 0, some ⟨0, []⟩⟩, 513)).thread 512 =
      .running ⟨some 512, none⟩ :=
    (thread_setThread_of_ne _ _ (by decide)).trans (hrunning 512 (by decide))
  have hpush' : withHist step upd (.push 512 0)
      (s.setThread 0 (⟨some 0, some ⟨0, []⟩⟩, 513), [⟨0, 0, 0⟩]) =
        some ((s.setThread 0 (⟨some 0, some ⟨0, []⟩⟩, 513)).setThread 512
          (⟨some 512, none⟩, 513), [⟨512, 0, 0⟩, ⟨0, 0, 0⟩]) := by
    simp only [withHist, step, upd, hthread']
    rfl
  refine ⟨_, _, _, (hrun.next trivial hpush).next trivial hpush', by simp, by simp, ?_, ?_⟩
  · exact ⟨_, (thread_setThread_of_ne _ _ (by decide)).trans (thread_setThread _ _ _)⟩
  · exact ⟨_, thread_setThread _ _ _⟩

end Dtact.Io.Producers
