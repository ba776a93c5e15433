import Mathlib.Data.List.TakeDrop
import Dtact.Lib.Transition

/-!
# The submission queue of the file ring

The worker drains what is pending, pushes it to the submission queue of 256 entries, where the error
of a push is ignored, and waits for as many completions as it has drained. What the kernel takes and
completes is up to the environment.
-/

namespace Dtact.Fs.UringBatch

open Transition

variable {ε : Type}

/-- `IoUring::new(256)` -/
def sqEntries : Nat := 256

/-- `sq.push`; a full queue refuses the entry. -/
def push (sq : List ε) (entry : ε) : List ε :=
  if sq.length < sqEntries then sq ++ [entry] else sq

/-- `for entry in &batch { let _ = sq.push(&entry.0); }` -/
def pushAll (sq batch : List ε) : List ε := batch.foldl push sq

/-- The worker is at `drain_all`, at `submit_and_wait`, in it, or at the completions. -/
inductive WorkerPc
  | top
  | submit (len : Nat)
  | wait
  | reap
deriving DecidableEq

structure St (ε : Type) where
  sq : List ε
  inFlight : List ε
  cq : List ε
  worker : WorkerPc

def St.new : St ε := ⟨[], [], [], .top⟩

/-- The worker drains a batch; `submit_and_wait` submits the first `n` entries of the queue and
returns later; the operation at index `i` completes; the worker handles the completions. -/
inductive Act (ε : Type)
  | drain (batch : List ε)
  | enter (n : Nat)
  | ret (ok : Bool)
  | complete (i : Nat)
  | reap

def step (a : Act ε) (s : St ε) : Option (St ε) :=
  match a, s.worker with
  | .drain [], .top => some s
  | .drain batch, .top =>
    some { s with sq := pushAll s.sq batch, worker := .submit batch.length }
  | .enter n, .submit _ =>
    some { s with inFlight := s.inFlight ++ s.sq.take n, sq := s.sq.drop n, worker := .wait }
  | .ret ok, .wait => some { s with worker := if ok then .reap else .top }
  | .complete i, _ =>
    s.inFlight[i]?.map fun entry =>
      { s with inFlight := s.inFlight.eraseIdx i, cq := s.cq ++ [entry] }
  | .reap, .reap => some { s with cq := [], worker := .top }
  | _, _ => none

/-- The entries drained and those placed in the submission queue so far. -/
structure Ledger (ε : Type) where
  drained : List ε
  placed : List ε

def upd (a : Act ε) (s : St ε) (l : Ledger ε) : Ledger ε :=
  match a with
  | .drain batch => ⟨l.drained ++ batch, l.placed ++ (pushAll s.sq batch).drop s.sq.length⟩
  | _ => l

/-- A batch is drained only if there is room for it. -/
def Fits (s : St ε) : Act ε → Prop
  | .drain batch => s.sq.length + batch.length ≤ sqEntries
  | _ => True

theorem pushAll_eq (sq batch : List ε) :
    pushAll sq batch = sq ++ batch.take (sqEntries - sq.length) := by
  induction batch generalizing sq with
  | nil => simp [pushAll]
  | cons entry batch ih =>
    show pushAll (push sq entry) batch = _
    rw [ih, push]
    split
    · next hlt =>
      obtain ⟨room, hroom⟩ := Nat.exists_eq_add_of_lt hlt
      have hafter : sqEntries - (sq ++ [entry]).length = room := by simp; omega
      have hbefore : sqEntries - sq.length = room + 1 := by omega
      rw [hafter, hbefore, List.take_succ_cons, List.append_assoc, List.singleton_append]
    · next hge =>
      rw [Nat.sub_eq_zero_of_le (not_lt.mp hge), List.take_zero, List.take_zero]

/-- Of a batch that is drained all entries are placed exactly if there is room for them. -/
theorem placed_all_iff (s : St ε) (batch : List ε) :
    (pushAll s.sq batch).drop s.sq.length = batch ↔ batch = [] ∨ Fits s (.drain batch) := by
  rw [pushAll_eq, List.drop_left, List.take_eq_self_iff, Fits]
  cases batch with
  | nil => simp
  | cons entry batch =>
    simp only [List.length_cons, reduceCtorEq, false_or]
    omega

/-- The batch that is about to be submitted is in the queue. -/
def Queued (s : St ε) : Prop := ∀ len, s.worker = .submit len → len ≤ s.sq.length

/-- Between the drain and `submit_and_wait` the submission queue is the worker's own. -/
theorem Queued.step {a : Act ε} {s s' : St ε} (h : Queued s) (hfits : Fits s a)
    (hst : step a s = some s') : Queued s' := by
  unfold UringBatch.step at hst
  split at hst
  · cases hst
    exact h
  · next batch _ _ =>
    cases hst
    rintro len ⟨⟩
    have hroom : s.sq.length + batch.length ≤ sqEntries := hfits
    simp only [pushAll_eq, List.length_append, List.length_take]
    omega
  · cases hst
    rintro len ⟨⟩
  · next ok _ =>
    cases hst
    rintro len hlen
    cases ok <;> cases hlen
  · obtain ⟨entry, -, rfl⟩ := Option.map_eq_some_iff.mp hst
    exact h
  · cases hst
    rintro len ⟨⟩
  · cases hst

abbrev BatchRun (ok : St ε → Act ε → Prop) : List (Act ε) → St ε × Ledger ε → Prop :=
  Run (initHist (· = .new) ⟨[], []⟩) (withHist step upd) fun p a => ok p.1 a

/-- **No entry is lost and the worker never waits for too much, as long as the batches fit.** In
every state reached so, the entries of the next batch are all placed exactly if the batch fits. -/
theorem entries_placed {tr : List (Act ε)} {p : St ε × Ledger ε}
    (hrun : BatchRun Fits tr p) :
    p.2.placed = p.2.drained ∧
      (∀ len, p.1.worker = .submit len → len ≤ p.1.sq.length + p.1.inFlight.length) ∧
      ∀ batch, (upd (.drain batch) p.1 p.2).placed = (upd (.drain batch) p.1 p.2).drained ↔
        batch = [] ∨ Fits p.1 (.drain batch) := by
  have hinv : p.2.placed = p.2.drained ∧ Queued p.1 := by
    refine hrun.hist_invariant (I := fun s l => l.placed = l.drained ∧ Queued s) ?_ ?_
    · rintro s rfl
      exact ⟨rfl, nofun⟩
    · rintro s l a s' ⟨hplaced, hqueued⟩ hfits hstep
      refine ⟨?_, hqueued.step hfits hstep⟩
      cases a with
      | drain batch =>
        show l.placed ++ _ = l.drained ++ batch
        rw [(placed_all_iff s batch).mpr (.inr hfits), hplaced]
      | _ => exact hplaced
  obtain ⟨hplaced, hqueued⟩ := hinv
  refine ⟨hplaced, fun len hlen => Nat.le_add_right_of_le (hqueued len hlen), fun batch => ?_⟩
  rw [← placed_all_iff]
  simp only [upd, hplaced, List.append_cancel_left_eq]

instance (s : St ε) : (a : Act ε) → Decidable (Fits s a)
  | .drain _ => inferInstanceAs (Decidable (_ ≤ _))
  | .enter _ | .ret _ | .complete _ | .reap => inferInstanceAs (Decidable True)

/-- `submit_and_wait` fails for a first batch, of which one entry stays queued. -/
def failedBatch : List (Act Nat) :=
  [.drain [1, 2], .enter 1, .ret false, .complete 0, .drain [3]]

theorem entries_placed_failed :
    ∃ p : St Nat × Ledger Nat, BatchRun Fits failedBatch.reverse p ∧ p.1.worker = .submit 1 ∧
      p.1.sq = [2, 3] ∧ p.2.placed = p.2.drained := by
  obtain ⟨p, hrun, hworker, hsq⟩ : ∃ p : St Nat × Ledger Nat, BatchRun Fits failedBatch.reverse p ∧
      p.1.worker = .submit 1 ∧ p.1.sq = [2, 3] :=
    Run.exists_of_guarded failedBatch (.new, ⟨[], []⟩) ⟨rfl, rfl⟩ (by decide +kernel)
  exact ⟨p, hrun, hworker, hsq, (entries_placed hrun).1⟩

theorem drain_new (batch : List ε) (hne : batch ≠ []) :
    withHist step upd (.drain batch) (.new, ⟨[], []⟩) =
      some (⟨batch.take sqEntries, [], [], .submit batch.length⟩,
        ⟨batch, batch.take sqEntries⟩) := by
  cases batch with
  | nil => exact absurd rfl hne
  | cons entry batch => simp [withHist, step, upd, St.new, pushAll_eq]

/-- Of 257 operations at once one entry is lost, and the worker waits for a completion that never
comes. -/
theorem large_batch_overflows :
    ∃ p : St Nat × Ledger Nat, BatchRun Free [.drain (List.range 257)] p ∧
      256 ∉ p.2.placed ∧ 256 ∈ p.2.drained ∧ p.1.worker = .submit 257 ∧
        p.1.sq.length + p.1.inFlight.length = 256 := by
  refine ⟨_, .next (.start ⟨rfl, rfl⟩) trivial (drain_new _ (by simp)), ?_⟩
  simp [List.take_range, sqEntries]

end Dtact.Fs.UringBatch
