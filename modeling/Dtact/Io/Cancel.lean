import Dtact.Io.Slots

/-!
# Cancellations

A future that is dropped before its op is completed pushes the index of its slot to `cancel_queue`.
The worker issues `AsyncCancel` for that index. In between the op may complete and another future
may take the slot; the history counts how often each slot has been taken.
-/

namespace Dtact.Io

open Transition Handover

variable {φ ω : Type}

/-- A cancellation that the worker has issued: its slot, and how often the slot had been taken
when the drop began and when the worker popped the index. -/
structure Cancellation where
  slot : Nat
  takenAtDrop : Nat
  takenNow : Nat
deriving DecidableEq

structure Cancels (φ : Type) where
  taken : Nat → Nat
  /-- The count of the future's slot when its drop began. -/
  atDrop : φ → Nat
  /-- The counts that belong to the entries of `cancel_queue`. -/
  queued : List Nat
  issued : List Cancellation

def Cancels.init : Cancels φ := ⟨fun _ => 0, fun _ => 0, [], []⟩

def updCancels [DecidableEq φ] (a : Act φ ω) (s : St φ ω) (c : Cancels φ) : Cancels φ :=
  match a with
  | .run f _ =>
    match s.future f, s.freeSlots with
    | .popFree _, i :: _ | .popAgain _, i :: _ =>
      { c with taken := Function.update c.taken i (c.taken i + 1) }
    | .dropCancel _, _ => { c with queued := c.atDrop f :: c.queued }
    | _, _ => c
  | .drop f =>
    match s.future f with
    | .idle (some (i, _)) => { c with atDrop := Function.update c.atDrop f (c.taken i) }
    | _ => c
  | .popCancel =>
    match s.cancelQueue, c.queued with
    | i :: _, n :: queued => { c with queued, issued := ⟨i, n, c.taken i⟩ :: c.issued }
    | _, _ => c
  | .poll _ _ | .complete _ | .runWorker => c

/-! ## The condition -/

/-- `drop` has marked the slot and not yet pushed it to `cancel_queue`. -/
def Pc.toCancel : Pc ω → Option Nat
  | .dropCancel i => some i
  | _ => none

/-- No cancellation of the slot is on its way. -/
def St.NoCancel (s : St φ ω) (i : Nat) : Prop :=
  i ∉ s.cancelQueue ∧ ∀ f, (s.future f).toCancel ≠ some i

def WorkerPc.CancelFirst (s : St φ ω) : WorkerPc → Prop
  | .pushFree _ i => s.NoCancel i
  | _ => True

/-- The worker gives a slot back when no cancellation of it is on its way, and `drop` and the
completion of a slot do not pass each other. -/
def CancelFirst (s : St φ ω) (a : Act φ ω) : Prop :=
  InTurn s a ∧
    match a with
    | .runWorker => s.worker.CancelFirst s
    | _ => True

section

variable [DecidableEq φ] [DecidableEq ω]

abbrev CancelRun (ringDepth : Nat) (ok : St φ ω → Act φ ω → Prop) :
    List (Act φ ω) → St φ ω × Cancels φ → Prop :=
  Run (initHist (· = St.new ringDepth) Cancels.init) (withHist step updCancels) fun p a => ok p.1 a

end

/-! ## The invariant -/

/-- The slot of a drop in progress that may go on to cancel its op. -/
def Section.dropping (i : Nat) : Section ω → Option Nat
  | .drop _ => some i
  | _ => none

def Pc.dropping : Pc ω → Option Nat
  | .lock sec i | .loadData sec i | .loadVtable sec i _ | .storeData sec i | .storeVtable sec i
  | .unlock sec i => sec.dropping i
  | .dropLoad i _ | .dropStore i _ | .dropCancel i => some i
  | _ => none

/-- The slots whose cancellations are on their way are left to their ops, so that nobody can
take them, and their counts have not changed. -/
structure CancelOk (s : St φ ω) (h : Hist φ) (c : Cancels φ) : Prop where
  nodup : s.cancelQueue.Nodup
  queue : ∀ i ∈ s.cancelQueue, ∃ k, Orphan s h k i
  going : ∀ f i, (s.future f).toCancel = some i → i ∉ s.cancelQueue ∧ ∃ k, Orphan s h k i
  alone : ∀ f g i, (s.future f).toCancel = some i → (s.future g).toCancel = some i → f = g
  count : ∀ f i, (s.future f).dropping = some i → c.atDrop f = c.taken i
  counts : c.queued = s.cancelQueue.map c.taken
  issued : ∀ x ∈ c.issued, x.takenNow = x.takenAtDrop

section

variable {s s' : St φ ω} {h h' : Hist φ} {c : Cancels φ} {f : φ} {i : Nat}
  {owner : Nat → Owner φ}

theorem job_freeing {pc : WorkerPc} {k : Nat} (hjob : pc.job = .freeing k i) :
    pc = .pushFree k i := by
  cases pc with
  | pushFree k' j =>
    obtain ⟨rfl, rfl⟩ := Job.freeing.inj hjob
    rfl
  | idle | lock | swapData | swapVtable | unlock | storeCompleted | loadDropped => cases hjob

variable {pc : Pc ω} {a : Act φ ω}

/-- A drop in progress holds its slot until it has marked it. -/
theorem slot_of_dropping (hpc : pc.dropping = some i) :
    pc.hold.slot = some i ∨ pc.toCancel = some i := by
  cases pc with
  | lock sec | loadData sec | loadVtable sec | storeData sec | storeVtable sec | unlock sec =>
    cases sec with
    | drop k => exact .inl hpc
    | submit | queueFull | update | ready => cases hpc
  | dropLoad | dropStore => exact .inl hpc
  | dropCancel => exact .inr hpc
  | idle | popFree | popAgain | clearCompleted | clearDropped | pushQueue | loadCompleted
  | pushFree | gone => cases hpc

/-- A slot whose cancellation is on its way is not free. -/
theorem CancelOk.noCancel (hok : CancelOk s h c) (hinv : Handover.Inv owner (view s h))
    (hfree : i ∈ s.freeSlots) : s.NoCancel i := by
  refine ⟨fun hi => ?_, fun f hf => ?_⟩
  · obtain ⟨k, hk⟩ := hok.queue i hi
    exact hinv.not_orphan_of_free hfree hk
  · obtain ⟨k, hk⟩ := (hok.going f i hf).2
    exact hinv.not_orphan_of_free hfree hk

/-- A slot that a future holds has no cancellation on its way. -/
theorem CancelOk.noCancel_of_hold (hok : CancelOk s h c) (hinv : Handover.Inv owner (view s h))
    (hhold : (s.future f).hold.slot = some i) : s.NoCancel i := by
  have hheld : ((view s h).hold f).slot = some i := hhold
  refine ⟨fun hi => ?_, fun g hg => ?_⟩
  · obtain ⟨k, hk⟩ := hok.queue i hi
    exact hinv.not_orphan_of_hold hheld hk
  · obtain ⟨k, hk⟩ := (hok.going g i hg).2
    exact hinv.not_orphan_of_hold hheld hk

/-- A future moves on without marking a slot or beginning a drop. -/
def Calm (pc pc' : Pc ω) : Prop :=
  pc'.toCancel = none ∧ ∀ i, pc'.dropping = some i → pc.dropping = some i

theorem Section.calm_body (sec : Section ω) : Calm (.lock sec i) (sec.body i) := by
  cases sec <;> exact ⟨rfl, fun _ => id⟩

theorem Section.calm_next (sec : Section ω) : Calm (.unlock sec i) (sec.next i) := by
  cases sec with
  | drop k => exact ⟨rfl, fun _ => id⟩
  | submit | queueFull | update | ready => exact ⟨rfl, fun _ hi => by cases hi⟩

theorem Why.calm_next (why : Why) (pc : Pc ω) : Calm pc why.next := by
  cases why <;> exact ⟨rfl, fun _ hi => by cases hi⟩

/-- A step that begins no drop, takes no slot and leaves the cancellations alone. -/
theorem CancelOk.calm (hok : CancelOk s h c) (hqueue : s'.cancelQueue = s.cancelQueue)
    (hkeep : ∀ i, i ∈ s.cancelQueue ∨ (∃ f, (s.future f).toCancel = some i) →
      (∃ k, Orphan s h k i) → ∃ k, Orphan s' h' k i)
    (hfuture : ∀ g, s'.future g = s.future g ∨ Calm (s.future g) (s'.future g)) :
    CancelOk s' h' c := by
  have hto {g : φ} {i : Nat} (hg : (s'.future g).toCancel = some i) :
      (s.future g).toCancel = some i := by
    rcases hfuture g with heq | hcalm
    · rwa [← heq]
    · rw [hcalm.1] at hg
      cases hg
  exact {
    nodup := hqueue ▸ hok.nodup
    queue := fun i hi => hkeep i (.inl (hqueue ▸ hi)) (hok.queue i (hqueue ▸ hi))
    going := fun f i hf => by
      obtain ⟨hnot, hk⟩ := hok.going f i (hto hf)
      exact ⟨hqueue ▸ hnot, hkeep i (.inr ⟨f, hto hf⟩) hk⟩
    alone := fun f g i hf hg => hok.alone f g i (hto hf) (hto hg)
    count := fun f i hf => by
      rcases hfuture f with heq | hcalm
      · exact hok.count f i (heq ▸ hf)
      · exact hok.count f i (hcalm.2 i hf)
    counts := hqueue ▸ hok.counts
    issued := hok.issued }

variable [DecidableEq φ]

theorem calm_goto (hcalm : Calm (s.future f) pc) (g : φ) :
    (s.goto f pc).future g = s.future g ∨ Calm (s.future g) ((s.goto f pc).future g) := by
  rcases eq_or_ne g f with rfl | hne
  · right
    rwa [St.goto_self]
  · left
    rw [St.goto_of_ne s pc hne]

/-- What a future is about after the move of one is what that one is about now, or what it
was about before. -/
theorem goto_some {part : Pc ω → Option Nat} {g : φ} {j : Nat}
    (hg : part ((s.goto f pc).future g) = some j) :
    g = f ∧ part pc = some j ∨ g ≠ f ∧ part (s.future g) = some j := by
  rcases eq_or_ne g f with rfl | hne
  · rw [St.goto_self] at hg
    exact .inl ⟨rfl, hg⟩
  · rw [St.goto_of_ne s pc hne] at hg
    exact .inr ⟨hne, hg⟩

theorem CancelOk.take (hok : CancelOk s h c) (hinv : Handover.Inv owner (view s h))
    {rest : List Nat} (hfree : s.freeSlots = i :: rest)
    (hkeep : ∀ j, j ∈ s.cancelQueue ∨ (∃ f, (s.future f).toCancel = some j) →
      (∃ k, Orphan s h k j) → ∃ k, Orphan { s.goto f pc with freeSlots := rest } h' k j)
    (hpc : pc.toCancel = none ∧ pc.dropping = none) :
    CancelOk { s.goto f pc with freeSlots := rest } h'
      { c with taken := Function.update c.taken i (c.taken i + 1) } := by
  have hmem : i ∈ s.freeSlots := hfree ▸ List.mem_cons_self
  have hcalm : Calm (s.future f) pc := ⟨hpc.1, fun j hj => by rw [hpc.2] at hj; cases hj⟩
  have hno := hok.noCancel hinv hmem
  have hmoved : CancelOk { s.goto f pc with freeSlots := rest } h' c :=
    hok.calm rfl hkeep (calm_goto hcalm)
  refine { hmoved with count := fun g j hg => ?_, counts := ?_ }
  · have hne : j ≠ i := by
      rintro rfl
      have hg' : (s.future g).dropping = some j := by
        rcases calm_goto hcalm g with heq | hcalm'
        · exact heq ▸ hg
        · exact hcalm'.2 j hg
      rcases slot_of_dropping hg' with hslot | hto
      · exact hinv.not_held_of_free hmem hslot
      · exact hno.2 g hto
    exact (hmoved.count g j hg).trans (Function.update_of_ne hne _ _).symm
  · refine hmoved.counts.trans (List.map_congr_left fun j hj => ?_)
    have hne : j ≠ i := fun heq => hno.1 (heq ▸ hj)
    exact (Function.update_of_ne hne _ _).symm

theorem CancelOk.mark (hok : CancelOk s h c) (hinv : Handover.Inv owner (view s h)) {k : Nat}
    (hpc : s.future f = .dropStore i k) {slot : WakerSlot ω}
    (hkeep : ∀ j, j ∈ s.cancelQueue ∨ (∃ f, (s.future f).toCancel = some j) →
      (∃ k, Orphan s h k j) → ∃ k, Orphan ((s.setSlot i slot).goto f (.dropCancel i)) h' k j)
    (hmarked : ∃ k, Orphan ((s.setSlot i slot).goto f (.dropCancel i)) h' k i) :
    CancelOk ((s.setSlot i slot).goto f (.dropCancel i)) h' c := by
  have hno := hok.noCancel_of_hold hinv (f := f) (i := i) (by rw [hpc]; rfl)
  refine ⟨hok.nodup, fun j hj => hkeep j (.inl hj) (hok.queue j hj), fun g j hg => ?_,
    fun g g' j hg hg' => ?_, fun g j hg => ?_, hok.counts, hok.issued⟩
  · rcases goto_some hg with ⟨rfl, hi⟩ | ⟨-, hg⟩
    · obtain rfl := Option.some.inj hi
      exact ⟨hno.1, hmarked⟩
    · obtain ⟨hnot, hk⟩ := hok.going g j hg
      exact ⟨hnot, hkeep j (.inr ⟨g, hg⟩) hk⟩
  · rcases goto_some hg with ⟨rfl, hi⟩ | ⟨-, hg₀⟩ <;>
      rcases goto_some hg' with ⟨rfl, hi'⟩ | ⟨-, hg₀'⟩
    · rfl
    · obtain rfl := Option.some.inj hi
      exact absurd hg₀' (hno.2 g')
    · obtain rfl := Option.some.inj hi'
      exact absurd hg₀ (hno.2 g)
    · exact hok.alone g g' j hg₀ hg₀'
  · rcases goto_some hg with ⟨rfl, hi⟩ | ⟨-, hg⟩
    · obtain rfl := Option.some.inj hi
      exact hok.count g i (by rw [hpc]; rfl)
    · exact hok.count g j hg

theorem CancelOk.push (hok : CancelOk s h c) (hpc : s.future f = .dropCancel i)
    (hkeep : ∀ j, j ∈ s.cancelQueue ∨ (∃ f, (s.future f).toCancel = some j) →
      (∃ k, Orphan s h k j) →
      ∃ k, Orphan { s.goto f .gone with cancelQueue := i :: s.cancelQueue } h' k j) :
    CancelOk { s.goto f .gone with cancelQueue := i :: s.cancelQueue } h'
      { c with queued := c.atDrop f :: c.queued } := by
  have hto : (s.future f).toCancel = some i := by rw [hpc]; rfl
  obtain ⟨hnot, hk⟩ := hok.going f i hto
  have hother {g : φ} {j : Nat} (hg : ((s.goto f .gone).future g).toCancel = some j) :
      g ≠ f ∧ (s.future g).toCancel = some j :=
    (goto_some hg).resolve_left (by rintro ⟨-, ⟨⟩⟩)
  refine ⟨List.nodup_cons.mpr ⟨hnot, hok.nodup⟩, fun j hj => ?_, fun g j hg => ?_,
    fun g g' j hg hg' => hok.alone g g' j (hother hg).2 (hother hg').2, fun g j hg => ?_, ?_,
    hok.issued⟩
  · rcases List.mem_cons.mp hj with rfl | hj
    · exact hkeep j (.inr ⟨f, hto⟩) hk
    · exact hkeep j (.inl hj) (hok.queue j hj)
  · obtain ⟨hne, hg'⟩ := hother hg
    obtain ⟨hnot', hk'⟩ := hok.going g j hg'
    refine ⟨fun hj => ?_, hkeep j (.inr ⟨g, hg'⟩) hk'⟩
    rcases List.mem_cons.mp hj with rfl | hj
    · exact hne (hok.alone g f j hg' hto)
    · exact hnot' hj
  · obtain ⟨-, ⟨⟩⟩ | ⟨-, hg⟩ := goto_some hg
    exact hok.count g j hg
  · have hcount := hok.count f i (by rw [hpc]; rfl)
    rw [List.map_cons, ← hok.counts, hcount]

omit [DecidableEq φ] in
/-- `process_linux_completion` leaves the futures and the cancellations alone. -/
theorem runWorker_frame {pc : WorkerPc} (hst : runWorker s pc = some s') :
    s'.cancelQueue = s.cancelQueue ∧ s'.future = s.future := by
  cases pc with
  | idle => cases hst
  | lock | loadDropped =>
    simp only [runWorker] at hst
    split_ifs at hst <;> cases hst <;> exact ⟨rfl, rfl⟩
  | swapData | swapVtable | unlock | storeCompleted | pushFree =>
    cases hst
    exact ⟨rfl, rfl⟩

variable [DecidableEq ω]

theorem runFuture_worker {choice : Bool} (hst : runFuture f choice s pc = some s') :
    s'.worker = s.worker := by
  cases pc with
  | idle | gone => cases hst
  | popFree | popAgain | lock | loadVtable | pushQueue | loadCompleted | dropLoad =>
    simp only [runFuture] at hst
    repeat' split at hst
    all_goals cases hst
    all_goals rfl
  | clearCompleted | clearDropped | loadData | storeData | storeVtable | unlock | pushFree
  | dropStore | dropCancel =>
    cases hst
    rfl

/-- Only the worker itself leaves `process_linux_completion`. -/
theorem step_worker (ha : a ≠ .runWorker) (hbusy : s.worker ≠ .idle) (hst : step a s = some s') :
    s'.worker = s.worker := by
  cases a with
  | poll f waker | drop f =>
    simp only [step] at hst
    split at hst <;> cases hst <;> rfl
  | run f choice => exact runFuture_worker hst
  | complete k | popCancel =>
    simp only [step] at hst
    split at hst
    · next hidle _ => exact absurd hidle hbusy
    · cases hst
  | runWorker => exact absurd rfl ha

/-- What is left to an op stays with it when the worker heeds the cancellations. -/
theorem orphan_keep (hinv : Handover.Inv owner (view s h)) (hfirst : CancelFirst s a)
    (hst : step a s = some s') (hi : i ∈ s.cancelQueue ∨ ∃ f, (s.future f).toCancel = some i)
    (hk : ∃ k, Orphan s h k i) : ∃ k, Orphan s' (upd a s h) k i := by
  obtain ⟨k, hk⟩ := hk
  rcases hinv.orphan_step (step_refines hfirst.1 hst) hk with hk' | ⟨hjob, hidle⟩
  · exact ⟨k, hk'⟩
  -- The worker has given the slot back, which it does only if nothing is on its way.
  · have hworker : s.worker = .pushFree k i := job_freeing hjob
    rcases eq_or_ne a .runWorker with rfl | ha
    · have hno : s.worker.CancelFirst s := hfirst.2
      rw [hworker] at hno
      rcases hi with hi | ⟨f, hf⟩
      · exact absurd hi hno.1
      · exact absurd hf (hno.2 f)
    · have hsame := step_worker ha (by simp [hworker]) hst
      have hidle' : s'.worker.job = .idle := hidle
      rw [hsame, hworker] at hidle'
      cases hidle'


theorem CancelOk.run (hok : CancelOk s h c) (hinv : Handover.Inv owner (view s h)) {choice : Bool}
    (hfirst : CancelFirst s (.run f choice)) (hst : step (.run f choice) s = some s') :
    CancelOk s' (upd (.run f choice) s h) (updCancels (.run f choice) s c) := by
  have hkeep := fun j => orphan_keep (i := j) hinv hfirst hst
  have hcalm {s₁ : St φ ω} {pc pc' : Pc ω} (hpc : s.future f = pc)
      (hqueue : s₁.cancelQueue = s.cancelQueue) (hfuture : s₁.future = (s.goto f pc').future)
      (hpc' : Calm pc pc') (hkeep : ∀ j, j ∈ s.cancelQueue ∨ (∃ f, (s.future f).toCancel = some j) →
        (∃ k, Orphan s h k j) → ∃ k, Orphan s₁ (upd (.run f choice) s h) k j) :
      CancelOk s₁ (upd (.run f choice) s h) c :=
    hok.calm hqueue hkeep fun g => by
      rw [hfuture]
      exact calm_goto (hpc ▸ hpc') g
  have hrun : runFuture f choice s (s.future f) = some s' := hst
  generalize hpc : s.future f = pc at hrun
  cases pc with
  | idle | gone =>
    cases hrun
  | popFree waker | popAgain waker =>
    simp only [runFuture] at hrun
    split at hrun
    · next i rest hfree =>
      cases hrun
      simp only [updCancels, hpc, hfree]
      exact hok.take hinv hfree hkeep ⟨rfl, rfl⟩
    · next hfree =>
      simp only [updCancels, hpc, hfree]
      repeat' split at hrun
      all_goals
        cases hrun
        exact hcalm hpc rfl rfl ⟨rfl, fun _ hi => by cases hi⟩ hkeep
  | dropStore i k =>
    cases hrun
    simp only [updCancels, hpc]
    refine hok.mark hinv hpc hkeep ⟨k, ?_⟩
    have hleaving : (view s h).hold f = .leaving i k := congrArg Pc.hold hpc
    have hholdOk := hinv.holdOk f
    rw [hleaving] at hholdOk
    refine ⟨?_, hholdOk.2.1.unprocessed⟩
    simp only [upd, hpc]
    exact List.mem_cons_self
  | dropCancel i =>
    cases hrun
    simp only [updCancels, hpc]
    exact hok.push hpc hkeep
  | lock sec i =>
    simp only [runFuture] at hrun
    split_ifs at hrun
    cases hrun
    simp only [updCancels, hpc]
    exact hcalm hpc rfl rfl sec.calm_body hkeep
  | unlock sec i =>
    cases hrun
    simp only [updCancels, hpc]
    exact hcalm hpc rfl rfl sec.calm_next hkeep
  | pushFree why i =>
    cases hrun
    simp only [updCancels, hpc]
    exact hcalm hpc rfl rfl (why.calm_next _) hkeep
  | loadVtable | dropLoad =>
    simp only [runFuture] at hrun
    simp only [updCancels, hpc]
    split_ifs at hrun <;> cases hrun <;>
      exact hcalm hpc rfl rfl ⟨rfl, fun _ hi => by first | exact hi | cases hi⟩ hkeep
  | pushQueue | loadCompleted =>
    simp only [runFuture] at hrun
    simp only [updCancels, hpc]
    split_ifs at hrun <;> cases hrun <;>
      exact hcalm hpc rfl rfl ⟨rfl, fun _ hi => by cases hi⟩ hkeep
  | clearCompleted | clearDropped | loadData | storeData | storeVtable =>
    cases hrun
    simp only [updCancels, hpc]
    exact hcalm hpc rfl rfl ⟨rfl, fun _ hi => hi⟩ hkeep

theorem CancelOk.step (hok : CancelOk s h c) (hinv : Handover.Inv owner (view s h))
    (hfirst : CancelFirst s a) (hst : Io.step a s = some s') :
    CancelOk s' (upd a s h) (updCancels a s c) := by
  have hkeep := fun j => orphan_keep (i := j) hinv hfirst hst
  cases a with
  | run f choice => exact hok.run hinv hfirst hst
  | poll f waker =>
    simp only [Io.step] at hst
    split at hst <;> cases hst <;>
      exact hok.calm rfl hkeep (calm_goto ⟨rfl, fun _ hi => by cases hi⟩)
  | drop f =>
    simp only [Io.step] at hst
    split at hst
    · next hpc =>
      cases hst
      simp only [updCancels, hpc]
      exact hok.calm rfl hkeep (calm_goto ⟨rfl, fun _ hi => by cases hi⟩)
    · next i k hpc =>
      cases hst
      simp only [updCancels, hpc]
      -- The count of the slot is noted; nothing else happens to the cancellations.
      have hquiet : CancelOk (s.goto f .gone) (upd (.drop f) s h) c :=
        hok.calm rfl hkeep (calm_goto ⟨rfl, fun _ hi => by cases hi⟩)
      have hto {g : φ} {j : Nat}
          (hg : ((s.goto f (.lock (.drop k) i)).future g).toCancel = some j) :
          ((s.goto f .gone).future g).toCancel = some j := by
        obtain ⟨-, ⟨⟩⟩ | ⟨hne, hg⟩ := goto_some hg
        rwa [St.goto_of_ne s _ hne]
      refine ⟨hquiet.nodup, hquiet.queue, fun g j hg => hquiet.going g j (hto hg),
        fun g g' j hg hg' => hquiet.alone g g' j (hto hg) (hto hg'), fun g j hg => ?_,
        hquiet.counts, hquiet.issued⟩
      rcases goto_some hg with ⟨rfl, hi⟩ | ⟨hne, hg⟩
      · obtain rfl := Option.some.inj hi
        exact Function.update_self _ _ _
      · exact (Function.update_of_ne hne _ _).trans (hok.count g j hg)
    · cases hst
  | complete k =>
    simp only [Io.step] at hst
    split at hst
    · cases hst
      exact hok.calm rfl hkeep fun _ => .inl rfl
    · cases hst
  | runWorker =>
    obtain ⟨hqueue, hfuture⟩ := runWorker_frame hst
    exact hok.calm hqueue hkeep fun g => .inl (congrFun hfuture g)
  | popCancel =>
    simp only [Io.step] at hst
    split at hst
    · next i rest hidle hqueue =>
      cases hst
      have hcounts := hok.counts
      rw [hqueue, List.map_cons] at hcounts
      simp only [updCancels, hqueue, hcounts]
      have hnodup := List.nodup_cons.mp (hqueue ▸ hok.nodup)
      have hmem {j : Nat} (hj : j ∈ rest) : j ∈ s.cancelQueue := hqueue ▸ List.mem_cons_of_mem i hj
      refine ⟨hnodup.2, fun j hj => hkeep j (.inl (hmem hj)) (hok.queue j (hmem hj)),
        fun g j hg => ?_, hok.alone, hok.count, rfl, ?_⟩
      · obtain ⟨hnot, hk⟩ := hok.going g j hg
        exact ⟨fun hj => hnot (hmem hj), hkeep j (.inr ⟨g, hg⟩) hk⟩
      · exact List.forall_mem_cons.mpr ⟨rfl, hok.issued⟩
    · cases hst

end

/-! ## Result -/

theorem cancelOk_new (ringDepth : Nat) :
    CancelOk (St.new ringDepth : St φ ω) ⟨fun _ => none, [], [], []⟩ Cancels.init where
  nodup := List.nodup_nil
  queue := fun _ hi => by cases hi
  going := fun _ _ hf => by cases hf
  alone := fun _ _ _ hf => by cases hf
  count := fun _ _ hf => by cases hf
  counts := rfl
  issued := fun _ hx => by cases hx

/-- In a run in which the worker gives back no slot whose cancellation is on its way, and `drop`
and the completion of a slot do not pass each other, no index is queued twice and no slot was
taken between a drop and its cancellation. -/
theorem cancel_hits_dropped [DecidableEq φ] [DecidableEq ω] (ringDepth : Nat)
    (tr : List (Act φ ω)) (s : St φ ω) (c : Cancels φ)
    (hrun : CancelRun ringDepth CancelFirst tr (s, c)) :
    s.cancelQueue.Nodup ∧ ∀ x ∈ c.issued, x.takenNow = x.takenAtDrop := by
  obtain ⟨h, owner, -, hok⟩ := hrun.hist_invariant
    (I := fun s c => ∃ h owner, Handover.Inv owner (view s h) ∧ CancelOk s h c)
    (by
      rintro s rfl
      exact ⟨_, _, inv_new ringDepth, cancelOk_new ringDepth⟩)
    (by
      rintro s c a s' ⟨h, owner, hinv, hok⟩ hfirst hst
      obtain ⟨owner', hinv', -⟩ := hinv.step (step_refines hfirst.1 hst)
      exact ⟨_, owner', hinv', hok.step hinv hfirst hst⟩)
  exact ⟨hok.nodup, hok.issued⟩

instance [Fintype φ] (s : St φ ω) : (pc : WorkerPc) → Decidable (pc.CancelFirst s)
  | .pushFree _ _ => inferInstanceAs (Decidable (_ ∧ ∀ _, _ ≠ _))
  | .idle | .lock _ _ | .swapData _ _ | .swapVtable _ _ | .unlock _ _ | .storeCompleted _ _
  | .loadDropped _ _ => inferInstanceAs (Decidable True)

instance [Fintype φ] (s : St φ ω) : (a : Act φ ω) → Decidable (CancelFirst s a)
  | .runWorker => inferInstanceAs (Decidable (InTurn s .runWorker ∧ s.worker.CancelFirst s))
  | .run f choice => inferInstanceAs (Decidable (InTurn s (.run f choice) ∧ True))
  | .poll _ _ | .drop _ | .complete _ | .popCancel => inferInstanceAs (Decidable (True ∧ True))

/-- A future is dropped before its op is completed. -/
def abandons (f : Fin 2) : List (Act (Fin 2) Unit) := .drop f :: .replicate 7 (.run f true)

/-- The op of the first future is cancelled before the worker processes its completion; then the
second future takes the slot. -/
def cancelAndTake : List (Act (Fin 2) Unit) :=
  [submits 0, abandons 0, [.popCancel], .complete 0 :: .replicate 7 .runWorker, submits 1,
    abandons 1].flatten

theorem cancel_hits_dropped_cancelAndTake :
    ∃ tr, ∃ s : St (Fin 2) Unit, ∃ c, CancelRun 1 CancelFirst tr (s, c) ∧ s.cancelQueue = [0] ∧
      c.issued = [⟨0, 1, 1⟩] ∧ c.taken 0 = 2 ∧ s.cancelQueue.Nodup ∧
      ∀ x ∈ c.issued, x.takenNow = x.takenAtDrop := by
  obtain ⟨⟨s, c⟩, hrun, heq⟩ : ∃ p, CancelRun 1 CancelFirst cancelAndTake.reverse p ∧
      p.1.cancelQueue = [0] ∧ p.2.issued = [⟨0, 1, 1⟩] ∧ p.2.taken 0 = 2 :=
    Run.exists_of_guarded cancelAndTake (St.new 1, Cancels.init) ⟨rfl, rfl⟩ (by decide +kernel)
  exact ⟨_, s, c, hrun, heq.1, heq.2.1, heq.2.2, cancel_hits_dropped 1 _ s c hrun⟩

/-- The op of the first future completes while its cancellation is queued. The worker gives the
slot back and the second future takes it. -/
def completeAndTake : List (Act (Fin 2) Unit) :=
  [submits 0, abandons 0, .complete 0 :: .replicate 7 .runWorker, submits 1].flatten

/-- Then the worker cancels the op of the second future; or the second future is dropped as
well, and its slot is queued twice. Both happen although `drop` and the completion of a slot do
not pass each other. -/
theorem cancel_hits_next_op :
    (∃ tr, ∃ s : St (Fin 2) Unit, ∃ c, CancelRun 1 InTurn tr (s, c) ∧
        ∃ x ∈ c.issued, x.takenNow ≠ x.takenAtDrop) ∧
      ∃ tr, ∃ s : St (Fin 2) Unit, ∃ c, CancelRun 1 InTurn tr (s, c) ∧ ¬ s.cancelQueue.Nodup := by
  constructor
  · obtain ⟨⟨s, c⟩, hrun, hissued⟩ : ∃ p, CancelRun 1 InTurn
        (completeAndTake ++ [Act.popCancel]).reverse p ∧ p.2.issued = [⟨0, 1, 2⟩] :=
      Run.exists_of_guarded (completeAndTake ++ [.popCancel]) (St.new 1, Cancels.init) ⟨rfl, rfl⟩
        (by decide +kernel)
    refine ⟨_, s, c, hrun, ⟨0, 1, 2⟩, ?_, by decide⟩
    exact hissued ▸ List.mem_singleton_self _
  · obtain ⟨⟨s, c⟩, hrun, hqueue⟩ : ∃ p, CancelRun 1 InTurn
        (completeAndTake ++ abandons 1).reverse p ∧ p.1.cancelQueue = [0, 0] :=
      Run.exists_of_guarded (completeAndTake ++ abandons 1) (St.new 1, Cancels.init) ⟨rfl, rfl⟩
        (by decide +kernel)
    refine ⟨_, s, c, hrun, fun hnodup => ?_⟩
    have hqueue' : s.cancelQueue = [0, 0] := hqueue
    rw [hqueue'] at hnodup
    exact absurd hnodup (by decide)

end Dtact.Io
