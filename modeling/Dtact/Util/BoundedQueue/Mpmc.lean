import Dtact.Lib.SeqRing
import Dtact.Lib.Transition
import Dtact.Util.BoundedQueue.Basic

/-!
# `BoundedMpmcQueue` under concurrency

Any number of threads call `try_push` and `try_pop`. The history numbers the successful CASes on
each counter.

Result: `mpmc_fifo`. For a capacity of at least two, a claimed cell is accessed by one thread, the
`k`-th consumer to win takes the value of the `k`-th producer to win, a value stays until a consumer
claims it, and at most `c` values are claimed and not yet popped.
-/

namespace Dtact.BoundedQueue

open Transition SeqRing

variable {T : Type}

/-! ## The threads and the history -/

structure St (T : Type) where
  queue : Queue T
  threads : Nat → Pc T

def St.init : St T := ⟨Queue.new T, fun _ => .idle⟩

/-- `tryPush` and `tryPop` begin a call, `run` is the next step of a thread. -/
inductive Act (T : Type)
  | tryPush (t : Nat) (v : T)
  | tryPop (t : Nat)
  | run (t : Nat) (spurious : Bool)

def Pc.ready : Pc T → Bool
  | .idle | .done _ => true
  | _ => false

def step (c : Nat) : Act T → St T → Option (St T)
  | .tryPush t v, s =>
    if (s.threads t).ready then
      some { s with threads := Function.update s.threads t (.pushLoad v) }
    else none
  | .tryPop t, s =>
    if (s.threads t).ready then some { s with threads := Function.update s.threads t .popLoad }
    else none
  | .run t spurious, s =>
    (pcStep c spurious s.queue (s.threads t)).map fun r =>
      ⟨r.2, Function.update s.threads t r.1⟩

structure Hist (T : Type) where
  /-- The values, in the order in which their producers won the CAS. -/
  pushes : List T
  pops : Nat
  /-- The number of the last CAS a thread has won. -/
  claim : Nat → Nat
  pushed : List Nat
  /-- The pops that have returned a value, with the value. -/
  popped : List (Nat × Ret T)

def Hist.empty : Hist T := ⟨[], 0, fun _ => 0, [], []⟩

def upd (a : Act T) (s : St T) (h : Hist T) : Hist T :=
  match a with
  | .tryPush _ _ | .tryPop _ => h
  | .run t spurious =>
    match s.threads t with
    | .pushCas v pos =>
      if s.queue.enqueuePos = pos ∧ spurious = false then
        { h with pushes := h.pushes ++ [v], claim := Function.update h.claim t h.pushes.length }
      else h
    | .popCas pos =>
      if s.queue.dequeuePos = pos ∧ spurious = false then
        { h with pops := h.pops + 1, claim := Function.update h.claim t h.pops }
      else h
    | .pushStore _ => { h with pushed := h.claim t :: h.pushed }
    | .popStore _ value => { h with popped := (h.claim t, .ofRead value) :: h.popped }
    | _ => h

/-! ## The properties -/

/-- The position whose cell the thread has claimed and not yet republished. -/
def Pc.holds : Pc T → Option Nat
  | .pushWrite _ pos | .pushStore pos | .popRead pos | .popStore pos _ => some pos
  | _ => none

/-- No two threads have claimed the same cell. -/
def CellExclusive (c : Nat) (s : St T) : Prop :=
  ∀ t t' p p', (s.threads t).holds = some p → (s.threads t').holds = some p' →
    p % c = p' % c → t = t'

/-- The value of the `k`-th push is in its cell, published. -/
def Poppable (c : Nat) (s : St T) (k : Nat) (v : T) : Prop :=
  s.queue.seq (k % c) = k + 1 ∧ s.queue.data (k % c) = some v

/-- A `try_pop` of thread `t` that runs without interference returns `v`. -/
def PopsAlone (c : Nat) (s : St T) (t : Nat) (v : T) : Prop :=
  ∃ s', exec (step c) (.tryPop t :: List.replicate 5 (.run t false)) s = some s' ∧
    s'.threads t = .done (.value v)

structure MpmcOk (c : Nat) (s : St T) (h : Hist T) : Prop where
  exclusive : CellExclusive c s
  once : (h.popped.map Prod.fst).Nodup
  /-- The consumers get the values in the order of the producers. -/
  fifo : ∀ k r, (k, r) ∈ h.popped → k < h.pops ∧ ∃ v, h.pushes[k]? = some v ∧ r = .value v
  /-- A value that was pushed is popped or can be. -/
  kept : ∀ k ∈ h.pushed, h.pops ≤ k → ∃ v, h.pushes[k]? = some v ∧ Poppable c s k v ∧
    (h.pops = k → ∀ t, (s.threads t).ready = true → PopsAlone c s t v)
  bounded : h.pops ≤ h.pushes.length ∧ h.pushes.length ≤ h.pops + c

/-- The position counters are below `2 ^ 63`. -/
def PosBelow (s : St T) (_ : Act T) : Prop := s.queue.enqueuePos < 2 ^ 63

/-! ## The invariant -/

/-- What a thread knows of the positions it works on. -/
def PcOk (c : Nat) (v : View T) (data : Nat → Option T) : Pc T → Prop
  | .idle | .pushLoad _ | .popLoad | .done _ => True
  | .pushSeq _ pos => pos ≤ v.enq
  | .pushCas _ pos => pos ≤ v.enq ∧ (pos = v.enq → Free c v pos)
  | .pushWrite x pos => pos < v.enq ∧ pos ∉ v.published ∧ v.val pos = some x
  | .pushStore pos => pos < v.enq ∧ pos ∉ v.published ∧ data (pos % c) = v.val pos
  | .popSeq pos => pos ≤ v.deq
  | .popCas pos => pos ≤ v.deq ∧ (pos = v.deq → pos ∈ v.published)
  | .popRead pos => pos < v.deq ∧ pos ∉ v.released
  | .popStore pos r => pos < v.deq ∧ pos ∉ v.released ∧ r = v.val pos

/-- The history agrees with the view `v`. -/
structure HistOk (h : Hist T) (v : View T) : Prop where
  length : h.pushes.length = v.enq
  value : ∀ p < v.enq, h.pushes[p]? = v.val p
  pops : h.pops = v.deq
  pushed : ∀ k, k ∈ h.pushed ↔ k ∈ v.published
  popped : ∀ k r, (k, r) ∈ h.popped ↔ k ∈ v.released ∧ r = .ofRead (v.val k)
  once : (h.popped.map Prod.fst).Nodup

/-- The cells, the threads and the history agree with the view `v`. -/
structure Inv (c : Nat) (s : St T) (h : Hist T) (v : View T) : Prop where
  ring : Valid c v s.queue.seq s.queue.data
  enq : s.queue.enqueuePos = v.enq
  deq : s.queue.dequeuePos = v.deq
  below : v.enq ≤ 2 ^ 63
  pc : ∀ t, PcOk c v s.queue.data (s.threads t)
  unique : ∀ t t' p, (s.threads t).holds = some p → (s.threads t').holds = some p → t = t'
  claim : ∀ t p, (s.threads t).holds = some p → h.claim t = p
  hist : HistOk h v

/-- `v'` is `v` with more claimed, published and released. -/
structure Grows (v v' : View T) : Prop where
  enq : v.enq ≤ v'.enq
  deq : v.deq ≤ v'.deq
  published : v.published ⊆ v'.published
  released : v.released ⊆ v'.released
  val : ∀ p < v.enq, v'.val p = v.val p

namespace BoundedQueueLemmas

variable {c : Nat} {s : St T} {h : Hist T} {v v' : View T}

theorem grows_refl (v : View T) : Grows v v :=
  ⟨Nat.le_refl _, Nat.le_refl _, Set.Subset.rfl, Set.Subset.rfl, fun _ _ => rfl⟩

theorem grows_claimPush (v : View T) (x : T) : Grows v (v.claimPush x) :=
  ⟨Nat.le_succ _, Nat.le_refl _, Set.Subset.rfl, Set.Subset.rfl,
    fun _ hp => Function.update_of_ne (Nat.ne_of_lt hp) _ _⟩

theorem grows_publish (v : View T) (p : Nat) : Grows v (v.publish p) :=
  ⟨Nat.le_refl _, Nat.le_refl _, Set.subset_insert _ _, Set.Subset.rfl, fun _ _ => rfl⟩

theorem grows_claimPop (v : View T) : Grows v v.claimPop :=
  ⟨Nat.le_refl _, Nat.le_succ _, Set.Subset.rfl, Set.Subset.rfl, fun _ _ => rfl⟩

theorem grows_release (v : View T) (p : Nat) : Grows v (v.release p) :=
  ⟨Nat.le_refl _, Nat.le_refl _, Set.Subset.rfl, Set.subset_insert _ _, fun _ _ => rfl⟩

/-- What a thread knows stays true as long as nobody publishes, releases or
overwrites the position it holds. -/
theorem pcOk_mono {data data' : Nat → Option T} {pc : Pc T} (hle : v.deq ≤ v.enq)
    (hg : Grows v v') (hpc : PcOk c v data pc)
    (hheld : ∀ p, pc.holds = some p → (p ∈ v'.published → p ∈ v.published) ∧
      (p ∈ v'.released → p ∈ v.released) ∧ data' (p % c) = data (p % c)) :
    PcOk c v' data' pc := by
  cases pc with
  | idle | pushLoad _ | popLoad | done _ => trivial
  | pushSeq x pos => exact Nat.le_trans hpc hg.enq
  | pushCas x pos =>
    refine ⟨Nat.le_trans hpc.1 hg.enq, fun heq => ?_⟩
    have hold : pos = v.enq := Nat.le_antisymm hpc.1 (heq ▸ hg.enq)
    exact (hpc.2 hold).imp_right fun hr => hg.released hr
  | pushWrite x pos =>
    obtain ⟨hpub, _, _⟩ := hheld pos rfl
    exact ⟨Nat.lt_of_lt_of_le hpc.1 hg.enq, fun hp => hpc.2.1 (hpub hp),
      (hg.val pos hpc.1).trans hpc.2.2⟩
  | pushStore pos =>
    obtain ⟨hpub, _, hdata⟩ := hheld pos rfl
    refine ⟨Nat.lt_of_lt_of_le hpc.1 hg.enq, fun hp => hpc.2.1 (hpub hp), ?_⟩
    rw [hdata, hg.val pos hpc.1]
    exact hpc.2.2
  | popSeq pos => exact Nat.le_trans hpc hg.deq
  | popCas pos =>
    refine ⟨Nat.le_trans hpc.1 hg.deq, fun heq => ?_⟩
    have hold : pos = v.deq := Nat.le_antisymm hpc.1 (heq ▸ hg.deq)
    exact hg.published (hpc.2 hold)
  | popRead pos =>
    obtain ⟨_, hrel, _⟩ := hheld pos rfl
    exact ⟨Nat.lt_of_lt_of_le hpc.1 hg.deq, fun hr => hpc.2 (hrel hr)⟩
  | popStore pos r =>
    obtain ⟨_, hrel, _⟩ := hheld pos rfl
    refine ⟨Nat.lt_of_lt_of_le hpc.1 hg.deq, fun hr => hpc.2.1 (hrel hr), ?_⟩
    rw [hg.val pos (Nat.lt_of_lt_of_le hpc.1 hle)]
    exact hpc.2.2

theorem held_in_use (hi : Inv c s h v) {t p : Nat} (hp : (s.threads t).holds = some p) :
    p < v.enq ∧ p ∉ v.released := by
  have hpc := hi.pc t
  cases ht : s.threads t with
  | pushWrite x pos | pushStore pos =>
    rw [ht] at hp hpc
    obtain rfl : pos = p := by simpa [Pc.holds] using hp
    exact ⟨hpc.1, fun hr => hpc.2.1 (hi.ring.published_of_released hr)⟩
  | popRead pos =>
    rw [ht] at hp hpc
    obtain rfl : pos = p := by simpa [Pc.holds] using hp
    exact ⟨Nat.lt_of_lt_of_le hpc.1 hi.ring.deq_le, hpc.2⟩
  | popStore pos r =>
    rw [ht] at hp hpc
    obtain rfl : pos = p := by simpa [Pc.holds] using hp
    exact ⟨Nat.lt_of_lt_of_le hpc.1 hi.ring.deq_le, hpc.2.1⟩
  | _ => simp [ht, Pc.holds] at hp

/-- One thread moves; the other threads hold what they held. -/
theorem inv_update (hi : Inv c s h v) {t : Nat} {pc : Pc T} {q : Queue T} {h' : Hist T}
    (ring : Valid c v' q.seq q.data) (enq : q.enqueuePos = v'.enq) (deq : q.dequeuePos = v'.deq)
    (below : v'.enq ≤ 2 ^ 63) (hg : Grows v v') (hpc : PcOk c v' q.data pc)
    (hother : ∀ t' ≠ t, ∀ p, (s.threads t').holds = some p →
      (p ∈ v'.published → p ∈ v.published) ∧ (p ∈ v'.released → p ∈ v.released) ∧
        q.data (p % c) = s.queue.data (p % c))
    (hnew : ∀ p, pc.holds = some p → h'.claim t = p ∧
      ∀ t' ≠ t, (s.threads t').holds ≠ some p)
    (hclaim : ∀ t' ≠ t, h'.claim t' = h.claim t') (hist : HistOk h' v') :
    Inv c ⟨q, Function.update s.threads t pc⟩ h' v' := by
  refine ⟨ring, enq, deq, below, fun u => ?_, fun u u' p hu hu' => ?_, fun u p hu => ?_, hist⟩
  · by_cases hut : u = t
    · subst hut
      simpa using hpc
    · simp only [Function.update_of_ne hut]
      exact pcOk_mono hi.ring.deq_le hg (hi.pc u) (hother u hut)
  · by_cases hut : u = t <;> by_cases hut' : u' = t
    · exact hut.trans hut'.symm
    · subst hut
      simp only [Function.update_self, Function.update_of_ne hut'] at hu hu'
      exact absurd hu' ((hnew p hu).2 u' hut')
    · subst hut'
      simp only [Function.update_self, Function.update_of_ne hut] at hu hu'
      exact absurd hu ((hnew p hu').2 u hut)
    · simp only [Function.update_of_ne hut, Function.update_of_ne hut'] at hu hu'
      exact hi.unique u u' p hu hu'
  · by_cases hut : u = t
    · subst hut
      simp only [Function.update_self] at hu
      exact (hnew p hu).1
    · simp only [Function.update_of_ne hut] at hu
      rw [hclaim u hut]
      exact hi.claim u p hu

theorem inv_quiet (hi : Inv c s h v) {t : Nat} {pc : Pc T} (hpc : PcOk c v s.queue.data pc)
    (hholds : ∀ p, pc.holds = some p → (s.threads t).holds = some p) :
    Inv c ⟨s.queue, Function.update s.threads t pc⟩ h v :=
  inv_update hi hi.ring hi.enq hi.deq hi.below (grows_refl v) hpc (fun _ _ _ _ => ⟨id, id, rfl⟩)
    (fun p hp => ⟨hi.claim t p (hholds p hp),
      fun t' hne hp' => hne (hi.unique t' t p hp' (hholds p hp))⟩)
    (fun _ _ => rfl) hi.hist

/-! ## The steps that change the queue -/

variable {t pos : Nat}

section

variable (hi : Inv c s h v)

include hi

theorem inv_pushCas (hc : 2 ≤ c) (hlt : v.enq < 2 ^ 63) {x : T} (ht : s.threads t = .pushCas x pos)
    (hpos : s.queue.enqueuePos = pos) :
    Inv c ⟨{ s.queue with enqueuePos := wrappingAdd pos 1 },
        Function.update s.threads t (.pushWrite x pos)⟩
      { h with pushes := h.pushes ++ [x], claim := Function.update h.claim t h.pushes.length }
      (v.claimPush x) := by
  obtain rfl : v.enq = pos := hi.enq.symm.trans hpos
  have hpc := hi.pc t
  rw [ht] at hpc
  have hfree : Free c v v.enq := hpc.2 rfl
  have hw : wrappingAdd v.enq 1 = v.enq + 1 := wrappingAdd_eq (by omega)
  refine inv_update hi (hi.ring.claimPush (by omega) hfree x) hw hi.deq hlt (grows_claimPush v x)
    ⟨Nat.lt_succ_self _, hi.ring.not_published_enq, Function.update_self ..⟩
    (fun _ _ _ _ => ⟨id, id, rfl⟩) ?_ (fun t' hne => Function.update_of_ne hne _ _) ?_
  · rintro p hp
    obtain rfl : v.enq = p := by simpa [Pc.holds] using hp
    refine ⟨by simpa using hi.hist.length, fun t' _ hp' => ?_⟩
    exact Nat.lt_irrefl _ (held_in_use hi hp').1
  · refine ⟨by simp [View.claimPush, hi.hist.length], fun p hp => ?_, hi.hist.pops,
      hi.hist.pushed, fun k r => ?_, hi.hist.once⟩
    · rcases Nat.lt_succ_iff_lt_or_eq.mp hp with hp | rfl
      · rw [List.getElem?_append_left (by rw [hi.hist.length]; exact hp), hi.hist.value p hp]
        simp [View.claimPush, Function.update_of_ne (Nat.ne_of_lt hp)]
      · simp [View.claimPush, ← hi.hist.length]
    · rw [hi.hist.popped]
      refine and_congr_right fun hk => ?_
      have hlt := Nat.lt_of_lt_of_le (hi.ring.released_lt k hk) hi.ring.deq_le
      simp [View.claimPush, Function.update_of_ne (Nat.ne_of_lt hlt)]

theorem inv_pushWrite {x : T} (ht : s.threads t = .pushWrite x pos) :
    Inv c ⟨{ s.queue with data := Function.update s.queue.data (pos % c) (some x) },
        Function.update s.threads t (.pushStore pos)⟩ h v := by
  have hpc := hi.pc t
  rw [ht] at hpc
  obtain ⟨hlt, hnp, hval⟩ := hpc
  have hholds : (s.threads t).holds = some pos := by rw [ht]; rfl
  refine inv_update hi (hi.ring.write hlt hnp _) hi.enq hi.deq hi.below (grows_refl v)
    ⟨hlt, hnp, by simp [hval]⟩ ?_ ?_ (fun _ _ => rfl) hi.hist
  · -- another thread's cell is another cell
    intro t' hne p hp
    refine ⟨id, id, Function.update_of_ne (fun hcell => hne ?_) _ _⟩
    have huse := held_in_use hi hp
    have huse' := held_in_use hi hholds
    obtain rfl := hi.ring.eq_of_same_cell huse.1 huse'.1 huse.2 huse'.2 hcell
    exact hi.unique t' t p hp hholds
  · intro p hp
    obtain rfl : pos = p := by simpa [Pc.holds] using hp
    exact ⟨hi.claim t pos hholds, fun t' hne hp' => hne (hi.unique t' t pos hp' hholds)⟩

theorem inv_pushStore (ht : s.threads t = .pushStore pos) :
    Inv c ⟨{ s.queue with seq := Function.update s.queue.seq (pos % c) (wrappingAdd pos 1) },
        Function.update s.threads t (.done .ok)⟩
      { h with pushed := h.claim t :: h.pushed } (v.publish pos) := by
  have hpc := hi.pc t
  rw [ht] at hpc
  obtain ⟨hlt, hnp, hval⟩ := hpc
  have hholds : (s.threads t).holds = some pos := by rw [ht]; rfl
  have hw : wrappingAdd pos 1 = pos + 1 := wrappingAdd_eq (by have := hi.below; omega)
  rw [hw]
  refine inv_update hi (hi.ring.publish hlt hnp hval) hi.enq hi.deq hi.below (grows_publish v pos)
    trivial ?_ (by simp [Pc.holds]) (fun _ _ => rfl) ?_
  · intro t' hne p hp
    refine ⟨fun hpub => hpub.resolve_left ?_, id, rfl⟩
    rintro rfl
    exact hne (hi.unique t' t p hp hholds)
  · refine { hi.hist with pushed := fun k => ?_ }
    rw [List.mem_cons, hi.hist.pushed, hi.claim t pos hholds]
    rfl

theorem inv_popCas (hlt : v.enq < 2 ^ 63) (ht : s.threads t = .popCas pos)
    (hpos : s.queue.dequeuePos = pos) :
    Inv c ⟨{ s.queue with dequeuePos := wrappingAdd pos 1 },
        Function.update s.threads t (.popRead pos)⟩
      { h with pops := h.pops + 1, claim := Function.update h.claim t h.pops } v.claimPop := by
  obtain rfl : v.deq = pos := hi.deq.symm.trans hpos
  have hpc := hi.pc t
  rw [ht] at hpc
  have hpub : v.deq ∈ v.published := hpc.2 rfl
  have hnr : v.deq ∉ v.released := fun hr => Nat.lt_irrefl _ (hi.ring.released_lt _ hr)
  have hle := hi.ring.deq_le
  have hw : wrappingAdd v.deq 1 = v.deq + 1 := wrappingAdd_eq (by omega)
  refine inv_update hi (hi.ring.claimPop hpub) hi.enq hw hi.below (grows_claimPop v)
    ⟨Nat.lt_succ_self _, hnr⟩ (fun _ _ _ _ => ⟨id, id, rfl⟩) ?_
    (fun t' hne => Function.update_of_ne hne _ _) ?_
  · intro p hp
    obtain rfl : v.deq = p := by simpa [Pc.holds] using hp
    refine ⟨by simpa using hi.hist.pops, fun t' _ hp' => ?_⟩
    -- a producer's position is unpublished, a consumer's is below `deq`
    have hpc' := hi.pc t'
    cases ht' : s.threads t' with
    | pushWrite x q | pushStore q =>
      rw [ht'] at hp' hpc'
      obtain rfl : q = v.deq := by simpa [Pc.holds] using hp'
      exact hpc'.2.1 hpub
    | popRead q | popStore q r =>
      rw [ht'] at hp' hpc'
      obtain rfl : q = v.deq := by simpa [Pc.holds] using hp'
      exact Nat.lt_irrefl _ hpc'.1
    | _ => simp [ht', Pc.holds] at hp'
  · exact { hi.hist with pops := by simp [View.claimPop, hi.hist.pops] }

theorem inv_popRead (ht : s.threads t = .popRead pos) :
    Inv c ⟨s.queue, Function.update s.threads t (.popStore pos (s.queue.data (pos % c)))⟩ h v := by
  have hpc := hi.pc t
  rw [ht] at hpc
  obtain ⟨hlt, hnr⟩ := hpc
  exact inv_quiet hi ⟨hlt, hnr, hi.ring.value pos (hi.ring.published_of_lt pos hlt) hnr⟩
    (by simp [ht, Pc.holds])

theorem inv_popStore (hc : Allocatable c) {r : Option T} (ht : s.threads t = .popStore pos r) :
    Inv c ⟨{ s.queue with seq := Function.update s.queue.seq (pos % c) (wrappingAdd pos c) },
        Function.update s.threads t (.done (.ofRead r))⟩
      { h with popped := (h.claim t, .ofRead r) :: h.popped } (v.release pos) := by
  have hpc := hi.pc t
  rw [ht] at hpc
  obtain ⟨hlt, hnr, rfl⟩ := hpc
  have hholds : (s.threads t).holds = some pos := by rw [ht]; rfl
  have hle := hi.ring.deq_le
  have hbelow := hi.below
  have hw : wrappingAdd pos c = pos + c := wrappingAdd_eq (by unfold Allocatable at hc; omega)
  rw [hw]
  refine inv_update hi (hi.ring.release hlt hnr) hi.enq hi.deq hi.below (grows_release v pos)
    trivial ?_ (by simp [Pc.holds]) (fun _ _ => rfl) ?_
  · intro t' hne p hp
    refine ⟨id, fun hrel => hrel.resolve_left ?_, rfl⟩
    rintro rfl
    exact hne (hi.unique t' t p hp hholds)
  · rw [hi.claim t pos hholds]
    refine { hi.hist with popped := fun k r => ?_, once := ?_ }
    · rw [List.mem_cons, hi.hist.popped, Prod.mk.injEq]
      simp only [View.release, Set.mem_insert_iff, Ret.ofRead]
      constructor
      · rintro (⟨rfl, rfl⟩ | ⟨hk, rfl⟩)
        · exact ⟨Or.inl rfl, rfl⟩
        · exact ⟨Or.inr hk, rfl⟩
      · rintro ⟨rfl | hk, rfl⟩
        · exact Or.inl ⟨rfl, rfl⟩
        · exact Or.inr ⟨hk, rfl⟩
    · rw [List.map_cons, List.nodup_cons]
      refine ⟨fun hin => ?_, hi.hist.once⟩
      obtain ⟨⟨k, r⟩, hkr, rfl⟩ := List.mem_map.mp hin
      exact hnr ((hi.hist.popped k r).mp hkr).1

theorem inv_run (hc : 2 ≤ c) (ha : Allocatable c) (hlt : v.enq < 2 ^ 63) {sp : Bool} {s' : St T}
    (hs : step c (.run t sp) s = some s') : ∃ v', Inv c s' (upd (.run t sp) s h) v' := by
  simp only [step, Option.map_eq_some_iff] at hs
  obtain ⟨⟨pc, q⟩, hq, rfl⟩ := hs
  have hpc := hi.pc t
  -- The steps that leave the queue and the history as they are.
  have quiet (hu : upd (.run t sp) s h = h) (hq : q = s.queue) (hok : PcOk c v s.queue.data pc)
      (hnone : pc.holds = none) :
      ∃ v', Inv c ⟨q, Function.update s.threads t pc⟩ (upd (.run t sp) s h) v' := by
    rw [hu, hq]
    exact ⟨v, inv_quiet hi hok (by simp [hnone])⟩
  generalize ht : s.threads t = pc at hq
  cases pc with
  | idle | done r => simp [pcStep] at hq
  | pushLoad x =>
    cases hq
    exact quiet (by simp [upd, ht]) rfl (Nat.le_of_eq hi.enq) rfl
  | pushSeq x pos =>
    rw [ht] at hpc
    have hu : upd (.run t sp) s h = h := by simp [upd, ht]
    simp only [pcStep] at hq
    split at hq
    · next hd =>
      cases hq
      refine quiet hu rfl ⟨hpc, ?_⟩ rfl
      rintro rfl
      have hle := hi.ring.seq_enq_le (by omega)
      exact hi.ring.free_of_seq hc (diff_eq_zero (by omega) (by omega) hd)
    · split at hq <;> cases hq <;> exact quiet hu rfl trivial rfl
  | pushCas x pos =>
    simp only [pcStep] at hq
    split at hq
    · next hwin =>
      cases hq
      exact ⟨_, by simpa [upd, ht, hwin] using inv_pushCas hi hc hlt ht hwin.1⟩
    · next hlost =>
      cases hq
      exact quiet (by simp [upd, ht, hlost]) rfl (Nat.le_of_eq hi.enq) rfl
  | pushWrite x pos =>
    cases hq
    exact ⟨v, by simpa [upd, ht] using inv_pushWrite hi ht⟩
  | pushStore pos =>
    cases hq
    exact ⟨_, by simpa [upd, ht] using inv_pushStore hi ht⟩
  | popLoad =>
    cases hq
    exact quiet (by simp [upd, ht]) rfl (Nat.le_of_eq hi.deq) rfl
  | popSeq pos =>
    rw [ht] at hpc
    have hu : upd (.run t sp) s h = h := by simp [upd, ht]
    simp only [pcStep] at hq
    split at hq
    · next hd =>
      cases hq
      refine quiet hu rfl ⟨hpc, ?_⟩ rfl
      rintro rfl
      have hle := hi.ring.seq_deq_le (by omega)
      have hle' := hi.ring.deq_le
      unfold Allocatable at ha
      rw [wrappingAdd_eq (by omega)] at hd
      exact hi.ring.published_of_seq (by omega) (diff_eq_zero (by omega) (by omega) hd)
    · split at hq <;> cases hq <;> exact quiet hu rfl trivial rfl
  | popCas pos =>
    simp only [pcStep] at hq
    split at hq
    · next hwin =>
      cases hq
      exact ⟨_, by simpa [upd, ht, hwin] using inv_popCas hi hlt ht hwin.1⟩
    · next hlost =>
      cases hq
      exact quiet (by simp [upd, ht, hlost]) rfl (Nat.le_of_eq hi.deq) rfl
  | popRead pos =>
    cases hq
    exact ⟨v, by simpa [upd, ht] using inv_popRead hi ht⟩
  | popStore pos r =>
    cases hq
    exact ⟨_, by simpa [upd, ht] using inv_popStore hi ha ht⟩

theorem inv_step (hc : 2 ≤ c) (ha : Allocatable c) (hlt : v.enq < 2 ^ 63) {a : Act T} {s' : St T}
    (hs : step c a s = some s') : ∃ v', Inv c s' (upd a s h) v' := by
  cases a with
  | tryPush t x | tryPop t =>
    simp only [step] at hs
    split at hs <;> cases hs
    exact ⟨v, inv_quiet hi trivial (by simp [Pc.holds])⟩
  | run t sp => exact inv_run hi hc ha hlt hs

end

theorem inv_init : Inv c (St.init : St T) Hist.empty View.empty where
  ring := Valid.empty fun _ _ => rfl
  enq := rfl
  deq := rfl
  below := Nat.zero_le _
  pc := fun _ => trivial
  unique := by simp [St.init, Pc.holds]
  claim := by simp [St.init, Pc.holds]
  hist := ⟨rfl, by simp [View.empty], rfl, by simp [Hist.empty, View.empty],
    by simp [Hist.empty, View.empty], List.nodup_nil⟩

/-- With position `deq` published, a `try_pop` that runs alone takes it. -/
theorem popsAlone_of_published (hi : Inv c s h v) (hlt : v.enq ≤ 2 ^ 63)
    (hp : v.deq ∈ v.published) {x : T} (hx : v.val v.deq = some x)
    (ht : (s.threads t).ready = true) : PopsAlone c s t x := by
  have hnr : v.deq ∉ v.released := fun hr => Nat.lt_irrefl _ (hi.ring.released_lt _ hr)
  have hle := hi.ring.published_lt _ hp
  have hw : wrappingAdd v.deq 1 = v.deq + 1 := wrappingAdd_eq (by omega)
  have hseq := hi.ring.seq_of_published hp hnr
  have hdata := (hi.ring.value _ hp hnr).trans hx
  simp [PopsAlone, List.replicate, exec, step, ht, pcStep, hi.deq, hw, hseq, diff_self, hdata,
    Ret.ofRead]

theorem mpmcOk_of_inv (hi : Inv c s h v) : MpmcOk c s h where
  exclusive := by
    intro t t' p p' hp hp' hcell
    have huse := held_in_use hi hp
    have huse' := held_in_use hi hp'
    obtain rfl := hi.ring.eq_of_same_cell huse.1 huse'.1 huse.2 huse'.2 hcell
    exact hi.unique t t' p hp hp'
  once := hi.hist.once
  fifo := by
    intro k r hkr
    obtain ⟨hk, rfl⟩ := (hi.hist.popped k r).mp hkr
    have hlt := hi.ring.released_lt k hk
    have hlt' := Nat.lt_of_lt_of_le hlt hi.ring.deq_le
    refine ⟨by rwa [hi.hist.pops], ?_⟩
    rw [← hi.hist.value k hlt']
    have hlen : k < h.pushes.length := by rwa [hi.hist.length]
    exact ⟨h.pushes[k], List.getElem?_eq_getElem hlen, by rw [List.getElem?_eq_getElem hlen]; rfl⟩
  kept := by
    intro k hk hpops
    rw [hi.hist.pushed] at hk
    rw [hi.hist.pops] at hpops ⊢
    have hlt := hi.ring.published_lt k hk
    have hnr : k ∉ v.released := fun hr => by have := hi.ring.released_lt k hr; omega
    have hlen : k < h.pushes.length := by rwa [hi.hist.length]
    have hval : v.val k = some h.pushes[k] := by
      rw [← hi.hist.value k hlt, List.getElem?_eq_getElem hlen]
    refine ⟨h.pushes[k], List.getElem?_eq_getElem hlen,
      ⟨hi.ring.seq_of_published hk hnr, (hi.ring.value k hk hnr).trans hval⟩, ?_⟩
    rintro rfl t ht
    exact popsAlone_of_published hi hi.below hk hval ht
  bounded := by
    rw [hi.hist.pops, hi.hist.length]
    exact ⟨hi.ring.deq_le, hi.ring.enq_le⟩

end BoundedQueueLemmas

open BoundedQueueLemmas

/-! ## The result -/

/-- The runs of the threads, with the history, in which the position counters
stay below `2 ^ 63`. -/
abbrev MpmcRun (c : Nat) (tr : List (Act T)) (p : St T × Hist T) : Prop :=
  Run (initHist (· = St.init) Hist.empty) (withHist (step c) upd) (fun p a => PosBelow p.1 a) tr p

/-- A queue of capacity two or more behaves as a FIFO in every run. -/
theorem mpmc_fifo (c : Nat) (hc : 2 ≤ c) (ha : Allocatable c) (tr : List (Act T))
    (p : St T × Hist T) (h : MpmcRun c tr p) : MpmcOk c p.1 p.2 := by
  suffices hi : ∃ v, Inv c p.1 p.2 v by
    obtain ⟨v, hi⟩ := hi
    exact mpmcOk_of_inv hi
  refine h.hist_invariant (I := fun s hist => ∃ v, Inv c s hist v) ?_
    (fun _ _ _ _ ⟨_, hi⟩ hb hst => inv_step hi hc ha (hi.enq ▸ hb) hst)
  rintro s rfl
  exact ⟨_, inv_init⟩

instance (s : St T) (a : Act T) : Decidable (PosBelow s a) :=
  inferInstanceAs (Decidable (s.queue.enqueuePos < 2 ^ 63))

/-- Thread 0 pushes, thread 1 pops what it pushed. -/
theorem mpmc_fifo_push_pop : ∃ (tr : List (Act Nat)) (p : St Nat × Hist Nat), MpmcRun 2 tr p ∧
    p.2.popped = [(0, .value 5)] ∧ MpmcOk 2 p.1 p.2 := by
  obtain ⟨tr, p, hrun, hpopped⟩ : ∃ (tr : List (Act Nat)) (p : St Nat × Hist Nat),
      MpmcRun 2 tr p ∧ p.2.popped = [(0, .value 5)] := by
    refine ⟨_, _, Run.of_exec_guarded (.tryPush 0 5 :: .tryPop 1 :: (List.replicate 5 (.run 0 false)
      ++ List.replicate 5 (.run 1 false))) (s := (St.init, Hist.empty)) ⟨rfl, rfl⟩ rfl, rfl⟩
  exact ⟨tr, p, hrun, hpopped, mpmc_fifo 2 (by decide) (by unfold Allocatable; decide) tr p hrun⟩

end Dtact.BoundedQueue
