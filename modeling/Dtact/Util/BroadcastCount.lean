import Mathlib.Data.Finset.Card
import Mathlib.Data.Fintype.Basic
import Dtact.Lib.Transition

/-!
# `sync::broadcast`: how `send` counts the receivers

`receiver_count` subtracts `sender_count` from the strong count of the `Arc`. It loads one after the
other, and the clone and the drop of a `Sender` change one after the other. Each of these is one
step; the rest of `send` is one step.
-/

namespace Dtact.Broadcast.Count

open Transition

/-! ## The counts -/

/-- Where a task is in `send`, or in the clone or the drop of a `Sender`. -/
inductive Pc
  | idle
  | loadStrong
  | loadSenders (strong : Nat)
  | deliver
  | cloneArc
  | dropArc
deriving DecidableEq

structure St (σ : Type) where
  strongCount : Nat
  senderCount : Nat
  /-- The `Sender`s there are, without those that are being dropped. -/
  senders : Nat
  receivers : Nat
  task : σ → Pc

variable {σ : Type}

/-- `channel` -/
def St.new : St σ := ⟨2, 1, 1, 1, fun _ => .idle⟩

inductive Act (σ : Type)
  | send (j : σ)
  | cloneSender (j : σ)
  | dropSender (j : σ)
  | run (j : σ)
  | cloneReceiver
  | dropReceiver

section

variable [DecidableEq σ]

def St.goto (s : St σ) (j : σ) (pc : Pc) : St σ := { s with task := Function.update s.task j pc }

/-- The next step of a task. `receiver_count` does not go below zero. -/
def St.run (s : St σ) (j : σ) : Option (St σ) :=
  match s.task j with
  | .idle => none
  | .loadStrong => some (s.goto j (.loadSenders s.strongCount))
  | .loadSenders strong =>
    some (s.goto j (if strong - s.senderCount = 0 then .idle else .deliver))
  | .deliver => some (s.goto j .idle)
  | .cloneArc =>
    some { s.goto j .idle with strongCount := s.strongCount + 1, senders := s.senders + 1 }
  | .dropArc => some { s.goto j .idle with strongCount := s.strongCount - 1 }

def step (a : Act σ) (s : St σ) : Option (St σ) :=
  match a with
  | .send j => if s.task j = .idle ∧ 0 < s.senders then some (s.goto j .loadStrong) else none
  | .cloneSender j =>
    if s.task j = .idle ∧ 0 < s.senders then
      some { s.goto j .cloneArc with senderCount := s.senderCount + 1 }
    else none
  | .dropSender j =>
    if s.task j = .idle ∧ 0 < s.senders then
      some { s.goto j .dropArc with
        senderCount := s.senderCount - 1, senders := s.senders - 1 }
    else none
  | .run j => s.run j
  | .cloneReceiver =>
    if 0 < s.receivers then
      some { s with strongCount := s.strongCount + 1, receivers := s.receivers + 1 }
    else none
  | .dropReceiver =>
    if 0 < s.receivers then
      some { s with strongCount := s.strongCount - 1, receivers := s.receivers - 1 }
    else none

end

/-! ## The property -/

/-- A send that has returned: with what, and whether there was a moment in the call without a
receiver, and one with a receiver. -/
structure Sent where
  ok : Bool
  sawNone : Bool
  sawSome : Bool
deriving DecidableEq

/-- It has failed for want of receivers, or succeeded with one. -/
def Sent.Right (r : Sent) : Prop :=
  (r.ok = false → r.sawNone = true) ∧ (r.ok = true → r.sawSome = true)

instance (r : Sent) : Decidable r.Right := inferInstanceAs (Decidable (_ ∧ _))

structure Hist (σ : Type) where
  /-- There was a moment without a receiver since the latest send of the task began. -/
  sawNone : σ → Bool
  sawSome : σ → Bool
  sent : List Sent

def Hist.new : Hist σ := ⟨fun _ => false, fun _ => true, []⟩

/-- What the send of a task returns with the next step. -/
def St.returns (s : St σ) (j : σ) : Option Bool :=
  match s.task j with
  | .loadSenders strong => if strong - s.senderCount = 0 then some false else none
  | .deliver => some true
  | .idle | .loadStrong | .cloneArc | .dropArc => none

section

variable [DecidableEq σ]

def Act.begins (j : σ) : Act σ → Bool
  | .send i => i = j
  | .cloneSender _ | .dropSender _ | .run _ | .cloneReceiver | .dropReceiver => false

def Act.receivers (s : St σ) : Act σ → Nat
  | .cloneReceiver => s.receivers + 1
  | .dropReceiver => s.receivers - 1
  | .send _ | .cloneSender _ | .dropSender _ | .run _ => s.receivers

def upd (a : Act σ) (s : St σ) (h : Hist σ) : Hist σ :=
  let sawNone j := (h.sawNone j && !a.begins j) || a.receivers s = 0
  let sawSome j := (h.sawSome j && !a.begins j) || a.receivers s ≠ 0
  ⟨sawNone, sawSome,
    match a with
    | .run j => ((s.returns j).map fun ok => ⟨ok, sawNone j, sawSome j⟩).toList ++ h.sent
    | .send _ | .cloneSender _ | .dropSender _ | .cloneReceiver | .dropReceiver => h.sent⟩

/-- The clone or drop of a `Sender` is between its two counts. -/
def Pc.midway : Pc → Bool
  | .cloneArc | .dropArc => true
  | .idle | .loadStrong | .loadSenders _ | .deliver => false

/-- A send is between its two loads. -/
def Pc.counting : Pc → Bool
  | .loadSenders _ => true
  | .idle | .loadStrong | .deliver | .cloneArc | .dropArc => false

/-- A send loads the strong count only while no clone or drop of a `Sender` is between its two
counts, and none changes `sender_count` while a send is between its two loads. -/
def Quiet (p : St σ × Hist σ) : Act σ → Prop
  | .run j => p.1.task j = .loadStrong → ∀ i, (p.1.task i).midway = false
  | .cloneSender _ | .dropSender _ => ∀ i, (p.1.task i).counting = false
  | .send _ | .cloneReceiver | .dropReceiver => True

instance [Fintype σ] (p : St σ × Hist σ) : (a : Act σ) → Decidable (Quiet p a)
  | .run _ => inferInstanceAs (Decidable (_ → ∀ _, _ = false))
  | .cloneSender _ | .dropSender _ => inferInstanceAs (Decidable (∀ _, _ = false))
  | .send _ | .cloneReceiver | .dropReceiver => inferInstanceAs (Decidable True)

abbrev CountRun (ok : St σ × Hist σ → Act σ → Prop) : List (Act σ) → St σ × Hist σ → Prop :=
  Run (initHist (· = St.new) Hist.new) (withHist step upd) ok

/-! ## What the counts say -/

/-- `sender_count` counts the `Sender`s there are and those being cloned, the `Arc` those there are,
those being dropped and the receivers. -/
def Counted (s : St σ) : Prop :=
  ∃ cloning dropping : Finset σ,
    (∀ j, j ∈ cloning ↔ s.task j = .cloneArc) ∧ (∀ j, j ∈ dropping ↔ s.task j = .dropArc) ∧
    s.senderCount = s.senders + cloning.card ∧
    s.strongCount = s.senders + dropping.card + s.receivers

variable {s s' : St σ} {h : Hist σ} {a : Act σ} {j : σ}

omit [DecidableEq σ] in
theorem counted_new : Counted (St.new : St σ) := by
  refine ⟨∅, ∅, ?_, ?_, ?_, ?_⟩ <;> simp [St.new]

omit [DecidableEq σ] in
/-- Nothing midway: the difference is the number of receivers. -/
theorem Counted.quiet (hs : Counted s) (hquiet : ∀ i, (s.task i).midway = false) :
    s.strongCount = s.receivers + s.senderCount := by
  obtain ⟨cloning, dropping, hcloning, hdropping, hsenders, hstrong⟩ := hs
  have hnone : cloning = ∅ := by
    refine Finset.eq_empty_of_forall_notMem fun j hj => ?_
    simpa [(hcloning j).mp hj, Pc.midway] using hquiet j
  have hnone' : dropping = ∅ := by
    refine Finset.eq_empty_of_forall_notMem fun j hj => ?_
    simpa [(hdropping j).mp hj, Pc.midway] using hquiet j
  rw [hnone, Finset.card_empty] at hsenders
  rw [hnone', Finset.card_empty] at hstrong
  omega

theorem exists_goto {st : Pc} {es : Finset σ} (hes : ∀ i, i ∈ es ↔ s.task i = st) (j : σ)
    (pc : Pc) : ∃ es' : Finset σ, (∀ i, i ∈ es' ↔ (s.goto j pc).task i = st) ∧
      es'.card + (if s.task j = st then 1 else 0) = es.card + if pc = st then 1 else 0 := by
  have hother {i : σ} (hne : i ≠ j) : (s.goto j pc).task i = s.task i :=
    Function.update_of_ne hne _ _
  have hself : (s.goto j pc).task j = pc := Function.update_self _ _ _
  have hcard : (es.erase j).card + (if s.task j = st then 1 else 0) = es.card := by
    split_ifs with hj
    · exact Finset.card_erase_add_one ((hes j).mpr hj)
    · rw [Finset.erase_eq_of_notMem (mt (hes j).mp hj), Nat.add_zero]
  by_cases hpc : pc = st
  · refine ⟨insert j (es.erase j), fun i => ?_, ?_⟩
    · rcases eq_or_ne i j with rfl | hne
      · rw [hself]
        simp [hpc]
      · simp [hother hne, hne, hes i]
    · rw [Finset.card_insert_of_notMem (Finset.notMem_erase j es), if_pos hpc]
      omega
  · refine ⟨es.erase j, fun i => ?_, by rw [if_neg hpc]; exact hcard⟩
    rcases eq_or_ne i j with rfl | hne
    · simp [hself, hpc]
    · simp [hother hne, hne, hes i]

/-- Only the clone and the drop of a `Sender` change what a task stands for. -/
theorem Counted.goto (hs : Counted s) (j : σ) (pc : Pc) : ∃ cloning dropping : Finset σ,
    (∀ i, i ∈ cloning ↔ (s.goto j pc).task i = .cloneArc) ∧
    (∀ i, i ∈ dropping ↔ (s.goto j pc).task i = .dropArc) ∧
    s.senderCount + (if pc = .cloneArc then 1 else 0) =
      s.senders + cloning.card + (if s.task j = .cloneArc then 1 else 0) ∧
    s.strongCount + (if pc = .dropArc then 1 else 0) =
      s.senders + dropping.card + s.receivers + if s.task j = .dropArc then 1 else 0 := by
  obtain ⟨cloning, dropping, hcloning, hdropping, hsenders, hstrong⟩ := hs
  obtain ⟨cloning', hcloning', hcard⟩ := exists_goto hcloning j pc
  obtain ⟨dropping', hdropping', hcard'⟩ := exists_goto hdropping j pc
  exact ⟨cloning', dropping', hcloning', hdropping', by omega, by omega⟩

theorem Counted.run (hs : Counted s) (hst : s.run j = some s') : Counted s' := by
  unfold St.run at hst
  cases hpc : s.task j with
  | idle =>
    simp only [hpc] at hst
    cases hst
  | loadStrong | deliver | cloneArc | dropArc =>
    rw [hpc] at hst
    cases hst
    obtain ⟨cloning, dropping, hcloning, hdropping, hsenders, hstrong⟩ := hs.goto j _
    refine ⟨cloning, dropping, hcloning, hdropping, ?_, ?_⟩
    all_goals simp [hpc, St.goto] at hsenders hstrong ⊢; omega
  | loadSenders strong =>
    rw [hpc] at hst
    cases hst
    obtain ⟨cloning, dropping, hcloning, hdropping, hsenders, hstrong⟩ := hs.goto j _
    refine ⟨cloning, dropping, hcloning, hdropping, ?_, ?_⟩
    all_goals split_ifs at hsenders hstrong <;> simp_all [St.goto]

theorem Counted.step (hs : Counted s) (hst : step a s = some s') : Counted s' := by
  cases a with
  | send j | cloneSender j | dropSender j =>
    obtain ⟨⟨hidle, hsome⟩, rfl⟩ :=
      Option.ite_none_right_eq_some.mp hst |>.imp_right Option.some.inj
    obtain ⟨cloning, dropping, hcloning, hdropping, hsenders, hstrong⟩ := hs.goto j _
    refine ⟨cloning, dropping, hcloning, hdropping, ?_, ?_⟩
    all_goals simp [hidle, St.goto] at hsenders hstrong ⊢; omega
  | run j => exact hs.run hst
  | cloneReceiver | dropReceiver =>
    obtain ⟨hsome, rfl⟩ := Option.ite_none_right_eq_some.mp hst |>.imp_right Option.some.inj
    obtain ⟨cloning, dropping, hcloning, hdropping, hsenders, hstrong⟩ := hs
    exact ⟨cloning, dropping, hcloning, hdropping, hsenders, by simp only; omega⟩

/-! ## What a send has seen -/

/-- What is known of a send between its two loads, and of one that has found a receiver. -/
def Knows (h : Hist σ) (senderCount : Nat) (j : σ) : Pc → Prop
  | .loadSenders strong => ∃ n, strong = n + senderCount ∧
      (n = 0 → h.sawNone j = true) ∧ (n ≠ 0 → h.sawSome j = true)
  | .deliver => h.sawSome j = true
  | .idle | .loadStrong | .cloneArc | .dropArc => True

structure Inv (s : St σ) (h : Hist σ) : Prop where
  counted : Counted s
  now : ∀ j, (s.receivers = 0 → h.sawNone j = true) ∧ (s.receivers ≠ 0 → h.sawSome j = true)
  knows : ∀ j, Knows h s.senderCount j (s.task j)
  right : ∀ r ∈ h.sent, r.Right

omit [DecidableEq σ] in
theorem inv_new : Inv (St.new : St σ) .new :=
  ⟨counted_new, fun _ => ⟨by simp [St.new], fun _ => rfl⟩, fun _ => trivial, by simp [Hist.new]⟩

theorem receivers_step (hst : step a s = some s') : s'.receivers = a.receivers s := by
  cases a with
  | send j | cloneSender j | dropSender j | cloneReceiver | dropReceiver =>
    obtain ⟨-, rfl⟩ := Option.ite_none_right_eq_some.mp hst |>.imp_right Option.some.inj
    rfl
  | run j =>
    have hst : s.run j = some s' := hst
    unfold St.run at hst
    split at hst <;> cases hst <;> rfl

theorem saw_upd (a : Act σ) (s : St σ) (h : Hist σ) (j : σ) :
    (a.receivers s = 0 → (upd a s h).sawNone j = true) ∧
    (a.receivers s ≠ 0 → (upd a s h).sawSome j = true) :=
  ⟨fun h0 => by simp [upd, h0], fun h0 => by simp [upd, h0]⟩

theorem now_step (hst : step a s = some s') (j : σ) :
    (s'.receivers = 0 → (upd a s h).sawNone j = true) ∧
    (s'.receivers ≠ 0 → (upd a s h).sawSome j = true) := by
  rw [receivers_step hst]
  exact saw_upd a s h j

/-- What a send knows stays true until it begins again. -/
theorem Knows.upd {n : Nat} {pc : Pc} (hknows : Knows h n j pc) (ha : a.begins j = false) :
    Knows (upd a s h) n j pc := by
  have hnone (hj : h.sawNone j = true) : (Count.upd a s h).sawNone j = true := by
    simp [Count.upd, hj, ha]
  have hsome (hj : h.sawSome j = true) : (Count.upd a s h).sawSome j = true := by
    simp [Count.upd, hj, ha]
  cases pc with
  | loadSenders strong =>
    obtain ⟨m, heq, hm, hm'⟩ := hknows
    exact ⟨m, heq, fun h0 => hnone (hm h0), fun h0 => hsome (hm' h0)⟩
  | deliver => exact hsome hknows
  | idle | loadStrong | cloneArc | dropArc => trivial

omit [DecidableEq σ] in
/-- It does not depend on `sender_count` but between the loads. -/
theorem Knows.senderCount {n m : Nat} {pc : Pc} (hknows : Knows h n j pc)
    (hpc : pc.counting = false) : Knows h m j pc := by
  cases pc with
  | loadSenders strong => cases hpc
  | idle | loadStrong | deliver | cloneArc | dropArc => exact hknows

theorem Inv.knows_goto (hinv : Inv s h) {pc : Pc} (ha : ∀ i ≠ j, a.begins i = false)
    (hj : Knows (Count.upd a s h) s.senderCount j pc) (i : σ) :
    Knows (Count.upd a s h) s.senderCount i ((s.goto j pc).task i) := by
  simp only [St.goto]
  rcases eq_or_ne i j with rfl | hne
  · rw [Function.update_self]
    exact hj
  · rw [Function.update_of_ne hne]
    exact (hinv.knows i).upd (ha i hne)

/-- A send between its loads finds no receiver if it has seen none, and finds one if it has. -/
theorem Inv.verdict (hinv : Inv s h) {strong : Nat} (hpc : s.task j = .loadSenders strong) :
    (strong - s.senderCount = 0 → (upd (.run j) s h).sawNone j = true) ∧
    (strong - s.senderCount ≠ 0 → (upd (.run j) s h).sawSome j = true) := by
  have hknows : Knows (upd (.run j) s h) s.senderCount j (.loadSenders strong) :=
    (hpc ▸ hinv.knows j).upd rfl
  obtain ⟨n, rfl, hnone, hsome⟩ := hknows
  rw [Nat.add_sub_cancel]
  exact ⟨hnone, hsome⟩

theorem Inv.right_run (hinv : Inv s h) (j : σ) : ∀ r ∈ (upd (.run j) s h).sent, r.Right := by
  intro r hr
  rcases List.mem_append.mp hr with hr | hr
  · rw [Option.mem_toList, Option.map_eq_some_iff] at hr
    obtain ⟨ok, hreturns, rfl⟩ := hr
    unfold St.returns at hreturns
    cases hpc : s.task j with
    | loadSenders strong =>
      simp only [hpc] at hreturns
      split_ifs at hreturns with h0
      cases hreturns
      exact ⟨fun _ => (hinv.verdict hpc).1 h0, by simp⟩
    | deliver =>
      simp only [hpc] at hreturns
      cases hreturns
      have hknows : Knows (upd (.run j) s h) s.senderCount j .deliver :=
        (hpc ▸ hinv.knows j).upd rfl
      exact ⟨by simp, fun _ => hknows⟩
    | idle | loadStrong | cloneArc | dropArc =>
      simp only [hpc] at hreturns
      cases hreturns
  · exact hinv.right r hr

theorem Inv.run (hinv : Inv s h) (hquiet : Quiet (s, h) (.run j)) (hst : s.run j = some s') :
    Inv s' (upd (.run j) s h) := by
  have hst : step (.run j) s = some s' := hst
  refine ⟨hinv.counted.step hst, now_step hst, ?_, hinv.right_run j⟩
  have hothers (i : σ) (_ : i ≠ j) : (Act.run j).begins i = false := rfl
  simp only [Count.step, St.run] at hst
  generalize hpc : s.task j = pc at hst
  cases pc with
  | idle =>
    simp only at hst
    cases hst
  | loadStrong =>
    cases hst
    exact hinv.knows_goto hothers
      ⟨s.receivers, hinv.counted.quiet (hquiet hpc), saw_upd (.run j) s h j⟩
  | loadSenders strong =>
    cases hst
    refine hinv.knows_goto hothers ?_
    split_ifs with h0
    · trivial
    · exact (hinv.verdict hpc).2 h0
  | deliver | cloneArc | dropArc =>
    cases hst
    exact hinv.knows_goto hothers trivial

theorem Inv.step (hinv : Inv s h) (hquiet : Quiet (s, h) a) (hst : step a s = some s') :
    Inv s' (upd a s h) := by
  cases a with
  | run j => exact hinv.run hquiet hst
  | send j =>
    refine ⟨hinv.counted.step hst, now_step hst, ?_, hinv.right⟩
    obtain ⟨-, rfl⟩ := Option.ite_none_right_eq_some.mp hst |>.imp_right Option.some.inj
    exact hinv.knows_goto (fun i hne => decide_eq_false hne.symm) trivial
  | cloneSender j | dropSender j =>
    refine ⟨hinv.counted.step hst, now_step hst, fun i => ?_, hinv.right⟩
    obtain ⟨-, rfl⟩ := Option.ite_none_right_eq_some.mp hst |>.imp_right Option.some.inj
    simp only [St.goto]
    rcases eq_or_ne i j with rfl | hne
    · rw [Function.update_self]
      trivial
    · rw [Function.update_of_ne hne]
      exact ((hinv.knows i).upd rfl).senderCount (hquiet i)
  | cloneReceiver | dropReceiver =>
    refine ⟨hinv.counted.step hst, now_step hst, fun i => ?_, hinv.right⟩
    obtain ⟨-, rfl⟩ := Option.ite_none_right_eq_some.mp hst |>.imp_right Option.some.inj
    exact (hinv.knows i).upd rfl

/-- In every run without a clone or drop of a `Sender` in the way, a send that has failed was
without a receiver at some moment, and one that has succeeded had one. -/
theorem send_knows_receivers {tr : List (Act σ)} (hrun : CountRun Quiet tr (s, h)) :
    ∀ r ∈ h.sent, r.Right := by
  have hinv : Inv s h := by
    refine hrun.hist_invariant (I := Inv) ?_
      (fun _ _ _ _ hinv hquiet hst => hinv.step hquiet hst)
    rintro s rfl
    exact inv_new
  exact hinv.right

end

/-! ## Runs -/

/-- A task sends and the receiver is dropped; then another `Sender` is cloned, and a second send
fails. -/
def sendTwice : List (Act (Fin 2)) :=
  [.send 0, .run 0, .run 0, .run 0, .dropReceiver, .cloneSender 1, .run 1, .send 0, .run 0, .run 0]

theorem send_knows_receivers_sendTwice : ∃ (s : St (Fin 2)) (h : Hist (Fin 2)),
    CountRun Quiet sendTwice.reverse (s, h) ∧ h.sent.map Sent.ok = [false, true] ∧
      ∀ r ∈ h.sent, r.Right := by
  obtain ⟨⟨s, h⟩, hrun, hsent⟩ : ∃ p : St (Fin 2) × Hist (Fin 2),
      CountRun Quiet sendTwice.reverse p ∧ p.2.sent.map Sent.ok = [false, true] :=
    Run.exists_of_guarded sendTwice (St.new, Hist.new) ⟨rfl, rfl⟩ (by decide +kernel)
  exact ⟨s, h, hrun, hsent, send_knows_receivers hrun⟩

/-- One task is just cloning the only `Sender` when another one sends: it fails, with a receiver
there all the time. Later one is just dropping a `Sender` after the receiver is gone: a send
succeeds, with no receiver there at any moment. -/
def midway : List (Act (Fin 2)) :=
  [.cloneSender 1, .send 0, .run 0, .run 0, .run 1, .dropReceiver, .dropSender 1, .send 0, .run 0,
    .run 0, .run 0]

/-- A `Sender` that is being cloned hides a receiver, and one that is being dropped counts as one:
both sends are wrong. -/
theorem send_misjudges_receivers : ∃ p : St (Fin 2) × Hist (Fin 2),
    CountRun Free midway.reverse p ∧ p.2.sent = [⟨true, true, false⟩, ⟨false, false, true⟩] ∧
      ∀ r ∈ p.2.sent, ¬ r.Right :=
  Run.exists_of_exec midway (St.new, Hist.new) ⟨rfl, rfl⟩ (by decide +kernel)

end Dtact.Broadcast.Count
