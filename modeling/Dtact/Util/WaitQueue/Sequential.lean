import Mathlib.Data.List.Perm.Basic
import Dtact.Lib.Transition
import Dtact.Util.BoundedQueue.Fifo
import Dtact.Util.WaitQueue

/-!
# `WaitQueue` used by one thread

The calls made one after another, down to the ring with its sequence numbers. The counters of the
ring wrap around, and its capacity divides `2 ^ 64`, so the number of calls is not bounded.
-/

namespace Dtact.WaitQueue.Sequential

open Transition BoundedQueue BoundedQueueLemmas SeqRing

/-! ## The ring -/

/-- A call that is not interrupted; `spurious` says which of its weak CASes fail. -/
def tryPush (c : Nat) (spurious : List Bool) (q : Queue Nat) (n : Nat) :
    Option (Ret Nat × Queue Nat) :=
  call c (2 * spurious.length + 6) spurious (.pushLoad n) q

def tryPop (c : Nat) (spurious : List Bool) (q : Queue Nat) : Option (Ret Nat × Queue Nat) :=
  call c (2 * spurious.length + 6) spurious .popLoad q

/-- The numbers of the ring are those of an unbounded one that holds `l`, modulo `2 ^ 64`. -/
structure Numbers (c : Nat) (q : Queue Nat) (l : List Nat) (seq : Nat → Nat) (v : View Nat) :
    Prop where
  settled : Settled c seq q.data l v
  seq : ∀ i < c, q.seq i = seq i % usizeMod
  enq : q.enqueuePos = v.enq % usizeMod
  deq : q.dequeuePos = v.deq % usizeMod

/-- The ring holds `l`. -/
def RingHolds (c : Nat) (q : Queue Nat) (l : List Nat) : Prop := ∃ seq v, Numbers c q l seq v

section

variable {c : Nat} {q : Queue Nat} {l : List Nat} {n : Nat} {seq : Nat → Nat} {v : View Nat}
  (hc : 2 ≤ c) (hsmall : c < 2 ^ 62) (hdvd : c ∣ usizeMod)

theorem RingHolds.length_le (h : RingHolds c q l) : l.length ≤ c := by
  obtain ⟨_, _, h⟩ := h
  exact h.settled.length_le

include hsmall in
theorem ringHolds_new : RingHolds c (Queue.new Nat) [] := by
  refine ⟨id, View.empty, Settled.empty fun _ _ => rfl, fun i hi => ?_, rfl, rfl⟩
  have hi : i < usizeMod := by unfold usizeMod; omega
  exact (Nat.mod_eq_of_lt hi).symm

include hdvd

/-- A new number in the cell of a position, also after the wrap. -/
theorem Numbers.seq_update (h : Numbers c q l seq v) (p x i : Nat) (hi : i < c) :
    Function.update q.seq (p % usizeMod % c) (x % usizeMod) i =
      Function.update seq (p % c) x i % usizeMod := by
  rw [Nat.mod_mod_of_dvd p hdvd]
  rcases eq_or_ne i (p % c) with rfl | hne
  · rw [Function.update_self, Function.update_self]
  · rw [Function.update_of_ne hne, Function.update_of_ne hne]
    exact h.seq i hi

theorem Numbers.push (h : Numbers c q l seq v) (hl : l.length < c) (n : Nat) :
    Numbers c (afterPush c q n) (l ++ [n]) (Function.update seq (v.enq % c) (v.enq + 1))
      ((v.claimPush n).publish v.enq) := by
  have hcell : q.enqueuePos % c = v.enq % c := by rw [h.enq, Nat.mod_mod_of_dvd _ hdvd]
  have hnext : wrappingAdd q.enqueuePos 1 = (v.enq + 1) % usizeMod := by
    rw [h.enq, wrappingAdd_mod]
  refine ⟨?_, fun i hi => ?_, hnext, h.deq⟩
  · simp only [afterPush, hcell]
    exact h.settled.push hl n
  · simp only [afterPush, h.enq, wrappingAdd_mod]
    exact h.seq_update hdvd v.enq (v.enq + 1) i hi

theorem Numbers.pop (h : Numbers c q (n :: l) seq v) :
    Numbers c (afterPop c q) l (Function.update seq (v.deq % c) (v.deq + c))
      (v.claimPop.release v.deq) := by
  refine ⟨h.settled.pop, fun i hi => ?_, h.enq, ?_⟩
  · simp only [afterPop, h.deq, wrappingAdd_mod]
    exact h.seq_update hdvd v.deq (v.deq + c) i hi
  · simp only [afterPop, h.deq, wrappingAdd_mod]
    rfl

include hc

/-- The cell of a position, also after the wrap. -/
theorem Numbers.seq_at (h : Numbers c q l seq v) (p : Nat) :
    q.seq (p % usizeMod % c) = seq (p % c) % usizeMod := by
  rw [Nat.mod_mod_of_dvd p hdvd]
  exact h.seq _ (Nat.mod_lt p (by omega))

theorem RingHolds.tryPush_ok (h : RingHolds c q l) (hl : l.length < c) (spurious : List Bool)
    (n : Nat) : ∃ q', tryPush c spurious q n = some (.ok, q') ∧ RingHolds c q' (l ++ [n]) := by
  obtain ⟨seq, v, h⟩ := h
  have hfree : diff (q.seq (q.enqueuePos % c)) q.enqueuePos = 0 := by
    rw [h.enq, h.seq_at hc hdvd, h.settled.seq_enq hl]
    exact diff_self _
  exact ⟨afterPush c q n, call_push_ok hfree spurious n, _, _, h.push hdvd hl n⟩

theorem RingHolds.tryPop_cons (h : RingHolds c q (n :: l)) (spurious : List Bool) :
    ∃ q', tryPop c spurious q = some (.value n, q') ∧ RingHolds c q' l ∧
      q'.enqueuePos = q.enqueuePos := by
  obtain ⟨seq, v, h⟩ := h
  have hready : diff (q.seq (q.dequeuePos % c)) (wrappingAdd q.dequeuePos 1) = 0 := by
    rw [h.deq, h.seq_at hc hdvd, h.settled.seq_deq (List.cons_ne_nil n l), wrappingAdd_mod]
    exact diff_self _
  have hdata : q.data (q.dequeuePos % c) = some n := by
    rw [h.deq, Nat.mod_mod_of_dvd _ hdvd]
    exact h.settled.data_deq
  have hcall := call_pop_value hready spurious
  rw [hdata] at hcall
  exact ⟨afterPop c q, hcall, ⟨_, _, h.pop hdvd⟩, rfl⟩

theorem RingHolds.tryPop_nil (h : RingHolds c q []) (spurious : List Bool) :
    tryPop c spurious q = some (.empty, q) := by
  obtain ⟨seq, v, h⟩ := h
  have hempty : diff (q.seq (q.dequeuePos % c)) (wrappingAdd q.dequeuePos 1) < 0 := by
    rw [h.deq, h.seq_at hc hdvd, h.settled.seq_deq_nil (by omega), wrappingAdd_mod,
      diff_mod_eq (by omega) (by omega)]
    omega
  exact call_pop_empty hempty spurious

omit hc hdvd

include hsmall

/-- The counters tell how many entries there are. -/
theorem RingHolds.length_eq (h : RingHolds c q l) :
    wrappingSub q.enqueuePos q.dequeuePos = l.length ∧
      diff q.enqueuePos q.dequeuePos = l.length := by
  obtain ⟨seq, v, h⟩ := h
  have hlen := h.settled.length
  have hle := h.settled.length_le
  rw [h.enq, h.deq, wrappingSub_mod (by omega) (by unfold usizeMod; omega),
    diff_mod_eq (by omega) (by omega)]
  omega

include hc hdvd

theorem RingHolds.tryPush_full (h : RingHolds c q l) (hl : l.length = c) (spurious : List Bool)
    (n : Nat) : tryPush c spurious q n = some (.full n, q) := by
  obtain ⟨seq, v, h⟩ := h
  have hlen := h.settled.length
  have hfull : diff (q.seq (q.enqueuePos % c)) q.enqueuePos < 0 := by
    rw [h.enq, h.seq_at hc hdvd, h.settled.seq_enq_full hl (by omega),
      diff_mod_eq (by omega) (by omega)]
    omega
  exact call_push_full hfull spurious n

end

/-! ## The calls -/

structure St where
  ring : Queue Nat
  /-- The top of the stack is the first. -/
  overflow : List Nat
  valid : Nat → Bool
  issued : Nat

def St.new : St := ⟨Queue.new Nat, [], fun _ => false, 0⟩

/-- `entry.valid.swap(false)` -/
def St.clear (s : St) (n : Nat) : St := { s with valid := Function.update s.valid n false }

def register (spurious : List Bool) (s : St) : Option St :=
  let s' := { s with valid := Function.update s.valid s.issued true, issued := s.issued + 1 }
  match tryPush readyCapacity spurious s.ring s.issued with
  | some (.ok, ring) => some { s' with ring }
  | some (.full n, ring) => some { s' with ring, overflow := n :: s.overflow }
  | _ => none

/-- `while let Some(entry) = ready.try_pop()`, with the entry whose waker is invoked and the CASes
that fail in each round. -/
def wakeReady : Nat → List (List Bool) → St → Option (Option Nat × St)
  | 0, _, _ => none
  | fuel + 1, spurious, s =>
    match tryPop readyCapacity (spurious.headD []) s.ring with
    | some (.value n, ring) =>
      if s.valid n then some (some n, { s.clear n with ring })
      else wakeReady fuel spurious.tail { s.clear n with ring }
    | some (.empty, ring) => some (none, { s with ring })
    | _ => none

/-- `while let Some(entry) = self.overflow.pop()` -/
def wakeOverflow (s : St) : List Nat → Option Nat × St
  | [] => (none, { s with overflow := [] })
  | n :: overflow =>
    if s.valid n then (some n, { s.clear n with overflow })
    else wakeOverflow (s.clear n) overflow

/-- The ring has at most 256 entries, so that the loop ends in the 257th round. -/
def wakeOne (spurious : List (List Bool)) (s : St) : Option (Option Nat × St) :=
  (wakeReady (readyCapacity + 1) spurious s).map fun r =>
    match r with
    | (some n, s') => (some n, s')
    | (none, s') => wakeOverflow s' s'.overflow

/-- `drain_until(target, ..)`, with the entries whose wakers are invoked. -/
def drainUntil (target : Nat) : Nat → List (List Bool) → St → Option (List Nat × St)
  | 0, _, _ => none
  | fuel + 1, spurious, s =>
    if 0 < diff target s.ring.dequeuePos then
      match tryPop readyCapacity (spurious.headD []) s.ring with
      | some (.value n, ring) =>
        (drainUntil target fuel spurious.tail { s.clear n with ring }).map fun r =>
          (if s.valid n then n :: r.1 else r.1, r.2)
      | some (.empty, ring) => drainUntil target fuel spurious.tail { s with ring }
      | _ => none
    else some ([], s)

/-- `for entry in self.overflow.drain_all()` -/
def drainOverflow (s : St) : List Nat → List Nat × St
  | [] => ([], { s with overflow := [] })
  | n :: rest =>
    let r := drainOverflow (s.clear n) rest
    (if s.valid n then n :: r.1 else r.1, r.2)

def wakeAll (spurious : List (List Bool)) (s : St) : Option (List Nat × St) :=
  (drainUntil s.ring.enqueuePos (readyCapacity + 1) spurious s).map fun r =>
    let o := drainOverflow r.2 r.2.overflow.reverse
    (r.1 ++ o.1, o.2)

inductive Act
  | register (spurious : List Bool)
  | cancel (n : Nat)
  | wakeOne (spurious : List (List Bool))
  | wakeAll (spurious : List (List Bool))

/-- The state after a call and the registrations whose wakers it has invoked. -/
def outcome (a : Act) (s : St) : Option (List Nat × St) :=
  match a with
  | .register spurious => (register spurious s).map fun s' => ([], s')
  | .cancel n => some ([], s.clear n)
  | .wakeOne spurious => (wakeOne spurious s).map fun r => (r.1.toList, r.2)
  | .wakeAll spurious => wakeAll spurious s

def step (a : Act) (s : St) : Option St := (outcome a s).map Prod.snd

/-- The entries in the ring and on the stack, cancelled ones included. -/
def St.resident (s : St) : Nat :=
  wrappingSub s.ring.enqueuePos s.ring.dequeuePos + s.overflow.length

structure Hist where
  /-- The registrations that are neither cancelled nor woken, the oldest first. -/
  live : List Nat
  /-- There have never been more than 256 entries. -/
  within : Bool

/-- What a call makes of the live registrations, but for those it wakes. -/
def Act.note (issued : Nat) (live : List Nat) : Act → List Nat
  | .register _ => live ++ [issued]
  | .cancel n => live.filter (· ≠ n)
  | .wakeOne _ | .wakeAll _ => live

def upd (a : Act) (s : St) (h : Hist) : Hist :=
  match outcome a s with
  | none => h
  | some r =>
    ⟨(a.note s.issued h.live).filter (· ∉ r.1), h.within && r.2.resident ≤ readyCapacity⟩

/-! ## One wake -/

/-- The first entry with the flag set is taken, with all before it. -/
inductive Serves (valid : Nat → Bool) (l : List Nat) : Option Nat → List Nat → Prop
  | one (skipped : List Nat) {n : Nat} {l' : List Nat} : l = skipped ++ n :: l' →
      (∀ k ∈ skipped, valid k = false) → valid n = true → Serves valid l (some n) l'
  | nobody : (∀ k ∈ l, valid k = false) → Serves valid l none []

def served (valid : Nat → Bool) : Option Nat → Nat → Bool
  | some n => Function.update valid n false
  | none => valid

section

variable {valid : Nat → Bool} {l l' o : List Nat} {r : Option Nat} {n : Nat} {s : St}

/-- Entries without the flag before do not matter. -/
theorem Serves.skip (h : Serves valid l r l') (skipped : List Nat)
    (hskipped : ∀ k ∈ skipped, valid k = false) : Serves valid (skipped ++ l) r l' := by
  cases h with
  | one skipped' heq hskipped' hn =>
    refine .one (skipped ++ skipped') (by rw [heq, List.append_assoc]) (fun k hk => ?_) hn
    exact (List.mem_append.mp hk).elim (hskipped k) (hskipped' k)
  | nobody hall =>
    exact .nobody fun k hk => (List.mem_append.mp hk).elim (hskipped k) (hall k)

theorem Serves.append (h : Serves valid l (some n) l') (o : List Nat) :
    Serves valid (l ++ o) (some n) (l' ++ o) := by
  cases h with
  | one skipped heq hskipped hn =>
    exact .one skipped (by rw [heq, List.append_assoc, List.cons_append]) hskipped hn

theorem Serves.sublist (h : Serves valid l r l') : l'.Sublist l := by
  cases h with
  | one skipped heq _ _ =>
    rw [heq]
    exact (List.sublist_cons_self _ _).trans (List.sublist_append_right _ _)
  | nobody _ => exact List.nil_sublist l

/-- Of the live entries the first one is served. -/
theorem Serves.filter (h : Serves valid l r l') (hnodup : l.Nodup) :
    l.filter valid = r.toList ++ l'.filter (served valid r) := by
  cases h with
  | @one skipped n l' heq hskipped hn =>
    subst heq
    have hnone : skipped.filter valid = [] := by
      rw [List.filter_eq_nil_iff]
      exact fun k hk => by simp [hskipped k hk]
    have hnotin : n ∉ l' := (List.nodup_cons.mp (List.nodup_append.mp hnodup).2.1).1
    have hrest : l'.filter (served valid (some n)) = l'.filter valid := by
      refine List.filter_congr fun k hk => Function.update_of_ne ?_ _ _
      rintro rfl
      exact hnotin hk
    rw [List.filter_append, hnone, List.filter_cons_of_pos hn, hrest]
    rfl
  | nobody hall =>
    rw [List.filter_eq_nil_iff.mpr fun k hk => by simp [hall k hk]]
    rfl

theorem Serves.head? (h : Serves valid l r l') : (l.filter valid).head? = r := by
  cases h with
  | one skipped heq hskipped hn =>
    rw [heq, List.filter_append, List.filter_eq_nil_iff.mpr fun k hk => by simp [hskipped k hk],
      List.filter_cons_of_pos hn]
    rfl
  | nobody hall =>
    rw [List.filter_eq_nil_iff.mpr fun k hk => by simp [hall k hk]]
    rfl

theorem clear_of_not (hn : s.valid n = false) : s.clear n = s := by
  rw [St.clear, ← hn, Function.update_eq_self]

theorem capacity_pos : 2 ≤ readyCapacity := by decide

theorem capacity_small : readyCapacity < 2 ^ 62 := by decide

theorem capacity_dvd : readyCapacity ∣ usizeMod := ⟨2 ^ 56, by decide⟩

theorem wakeReady_serves (fuel : Nat) (spurious : List (List Bool))
    (h : RingHolds readyCapacity s.ring l) (hl : l.length < fuel) :
    ∃ r l' ring, wakeReady fuel spurious s =
        some (r, { s with ring, valid := served s.valid r }) ∧
      Serves s.valid l r l' ∧ RingHolds readyCapacity ring l' := by
  induction fuel generalizing spurious s l with
  | zero => exact absurd hl (Nat.not_lt_zero _)
  | succ fuel ih =>
    cases l with
    | nil =>
      refine ⟨none, [], s.ring, ?_, .nobody (by simp), h⟩
      unfold wakeReady
      rw [h.tryPop_nil capacity_pos capacity_dvd]
      rfl
    | cons n l =>
      obtain ⟨ring, hpop, hring, -⟩ :=
        h.tryPop_cons capacity_pos capacity_dvd (spurious.headD [])
      cases hn : s.valid n with
      | true =>
        refine ⟨some n, l, ring, ?_, .one [] rfl (by simp) hn, hring⟩
        unfold wakeReady
        rw [hpop]
        exact if_pos hn
      | false =>
        obtain ⟨r, l', ring', hwake, hserves, hring'⟩ :=
          ih (s := { s with ring }) spurious.tail hring (by simpa using hl)
        refine ⟨r, l', ring', ?_, hserves.skip [n] (by simpa using hn), hring'⟩
        unfold wakeReady
        rw [hpop]
        simp only [hn, clear_of_not hn, Bool.false_eq_true, if_false]
        exact hwake

theorem wakeOverflow_serves (s : St) (o : List Nat) :
    ∃ r o', wakeOverflow s o = (r, { s with overflow := o', valid := served s.valid r }) ∧
      Serves s.valid o r o' := by
  induction o with
  | nil => exact ⟨none, [], rfl, .nobody (by simp)⟩
  | cons n o ih =>
    cases hn : s.valid n with
    | true =>
      refine ⟨some n, o, ?_, .one [] rfl (by simp) hn⟩
      simp only [wakeOverflow, hn, if_true]
      rfl
    | false =>
      obtain ⟨r, o', hwake, hserves⟩ := ih
      refine ⟨r, o', ?_, hserves.skip [n] (by simpa using hn)⟩
      simp only [wakeOverflow, hn, clear_of_not hn, Bool.false_eq_true, if_false]
      exact hwake

end

/-! ## Live entries -/

/-- The ring holds `l`; the live registrations are those with the flag set, and those in the ring
are in order. -/
structure Inv (s : St) (h : Hist) (l : List Nat) : Prop where
  ring : RingHolds readyCapacity s.ring l
  nodup : (l ++ s.overflow).Nodup
  issued : ∀ n ∈ l ++ s.overflow, n < s.issued
  live : ((l ++ s.overflow).filter s.valid).Perm h.live
  inOrder : (l.filter s.valid).Sublist h.live
  within : h.within = true → s.overflow = []

section

variable {s s' : St} {h : Hist} {l : List Nat}

/-- `wake_one` serves the ring, and the stack if there is nothing to serve in the ring. -/
theorem Inv.wakeOne (hinv : Inv s h l) (spurious : List (List Bool)) :
    ∃ r l' ring o', wakeOne spurious s =
        some (r, { s with ring, overflow := o', valid := served s.valid r }) ∧
      Serves s.valid (l ++ s.overflow) r (l' ++ o') ∧ RingHolds readyCapacity ring l' ∧
      o'.Sublist s.overflow ∧ (Serves s.valid l r l' ∨ l' = []) := by
  obtain ⟨r, l', ring, hwake, hserves, hring⟩ := wakeReady_serves _ spurious hinv.ring
    (Nat.lt_succ_of_le hinv.ring.length_le)
  rw [Sequential.wakeOne, hwake]
  cases r with
  | some n =>
    exact ⟨some n, l', ring, s.overflow, rfl, hserves.append s.overflow, hring, .refl _,
      .inl hserves⟩
  | none =>
    cases hserves with
    | nobody hall =>
      obtain ⟨r, o', hover, hserves⟩ := wakeOverflow_serves { s with ring } s.overflow
      exact ⟨r, [], ring, o', congrArg some hover, hserves.skip l hall, hring, hserves.sublist,
        .inr rfl⟩

theorem upd_live {a : Act} {r : List Nat × St} (hout : outcome a s = some r) :
    (upd a s h).live = (a.note s.issued h.live).filter (· ∉ r.1) := by
  rw [upd, hout]

theorem upd_within {a : Act} {r : List Nat × St} (hout : outcome a s = some r)
    (hwithin : (upd a s h).within = true) :
    h.within = true ∧ r.2.resident ≤ readyCapacity := by
  rw [upd, hout] at hwithin
  exact (Bool.and_eq_true_iff.mp hwithin).imp id of_decide_eq_true

theorem noneWoken (es : List Nat) : es.filter (· ∉ ([] : List Nat)) = es :=
  List.filter_eq_self.mpr fun k _ => by simp

theorem Inv.register (hinv : Inv s h l) (spurious : List Bool) :
    ∃ s' l', outcome (.register spurious) s = some ([], s') ∧
      Inv s' (upd (.register spurious) s h) l' := by
  obtain ⟨hring, hnodup, hissued, hlive, hinOrder, hwithin⟩ := hinv
  have hfresh : s.issued ∉ l ++ s.overflow := fun hmem => lt_irrefl _ (hissued _ hmem)
  have hkeep {es : List Nat} (hes : es ⊆ l ++ s.overflow) :
      es.filter (Function.update s.valid s.issued true) = es.filter s.valid := by
    refine List.filter_congr fun k hk => Function.update_of_ne ?_ _ _
    rintro rfl
    exact hfresh (hes hk)
  have hl := hkeep (List.subset_append_left l s.overflow)
  have ho := hkeep (List.subset_append_right l s.overflow)
  rw [List.filter_append] at hlive
  have hnext {m : Nat} (hm : m ∈ s.issued :: (l ++ s.overflow)) : m < s.issued + 1 := by
    rcases List.mem_cons.mp hm with rfl | hm
    · exact Nat.lt_succ_self _
    · exact Nat.lt_succ_of_lt (hissued m hm)
  have hperm : (s.issued :: (l.filter s.valid ++ s.overflow.filter s.valid)).Perm
      (h.live ++ [s.issued]) :=
    (hlive.cons s.issued).trans (List.perm_append_singleton s.issued h.live).symm
  obtain hroom | hfull := hring.length_le.lt_or_eq
  · obtain ⟨ring, hpush, hring'⟩ := hring.tryPush_ok capacity_pos capacity_dvd hroom spurious
      s.issued
    have hout : outcome (.register spurious) s = some ([], { s with
        ring, valid := Function.update s.valid s.issued true, issued := s.issued + 1 }) := by
      rw [outcome, Sequential.register, hpush]
      rfl
    have hmiddle : (l ++ [s.issued] ++ s.overflow).Perm (s.issued :: (l ++ s.overflow)) := by
      rw [List.append_assoc]
      exact List.perm_middle
    refine ⟨_, l ++ [s.issued], hout, hring', ?_, fun m hm => ?_, ?_, ?_, fun hw => ?_⟩
    · exact hmiddle.nodup_iff.mpr (List.nodup_cons.mpr ⟨hfresh, hnodup⟩)
    · exact hnext (hmiddle.subset hm)
    · rw [upd_live hout, noneWoken]
      refine (hmiddle.filter _).trans ?_
      rw [List.filter_cons_of_pos (Function.update_self ..), List.filter_append, hl, ho]
      exact hperm
    · rw [upd_live hout, noneWoken, List.filter_append, hl,
        List.filter_cons_of_pos (Function.update_self ..)]
      exact hinOrder.append (List.Sublist.refl _)
    · exact hwithin (upd_within hout hw).1
  · have hpush := hring.tryPush_full capacity_pos capacity_small capacity_dvd hfull spurious
      s.issued
    have hout : outcome (.register spurious) s = some ([], { s with
        valid := Function.update s.valid s.issued true, issued := s.issued + 1
        overflow := s.issued :: s.overflow }) := by
      rw [outcome, Sequential.register, hpush]
      rfl
    have hmiddle : (l ++ s.issued :: s.overflow).Perm (s.issued :: (l ++ s.overflow)) :=
      List.perm_middle
    refine ⟨_, l, hout, hring, ?_, fun m hm => ?_, ?_, ?_, fun hw => ?_⟩
    · exact hmiddle.nodup_iff.mpr (List.nodup_cons.mpr ⟨hfresh, hnodup⟩)
    · exact hnext (hmiddle.subset hm)
    · rw [upd_live hout, noneWoken]
      refine (hmiddle.filter _).trans ?_
      rw [List.filter_cons_of_pos (Function.update_self ..), List.filter_append, hl, ho]
      exact hperm
    · rw [upd_live hout, noneWoken, hl]
      exact hinOrder.trans (List.sublist_append_left _ _)
    · -- the ring is full, so this is the 257th entry at least
      have hle := (upd_within hout hw).2
      have hlen := (hring.length_eq capacity_small).1
      simp only [St.resident, hlen, hfull, List.length_cons] at hle
      omega

theorem Inv.drop {a : Act} {woken l' : List Nat} (hinv : Inv s h l) (keep : Nat → Bool)
    (hout : outcome a s = some (woken, s')) (hring : RingHolds readyCapacity s'.ring l')
    (hsub : (l' ++ s'.overflow).Sublist (l ++ s.overflow)) (hissued : s'.issued = s.issued)
    (hover : s'.overflow.Sublist s.overflow) (hlive : (upd a s h).live = h.live.filter keep)
    (hvalid : (l' ++ s'.overflow).filter s'.valid =
      ((l ++ s.overflow).filter s.valid).filter keep)
    (hfirst : (l'.filter s'.valid).Sublist ((l.filter s.valid).filter keep)) :
    Inv s' (upd a s h) l' := by
  refine ⟨hring, hsub.nodup hinv.nodup, fun n hn => ?_, ?_, ?_, fun hwithin => ?_⟩
  · rw [hissued]
    exact hinv.issued n (hsub.subset hn)
  · rw [hvalid, hlive]
    exact hinv.live.filter keep
  · rw [hlive]
    exact hfirst.trans (hinv.inOrder.filter keep)
  · have hnil := hinv.within (upd_within hout hwithin).1
    exact List.sublist_nil.mp (hnil ▸ hover)

theorem filter_clear (s : St) (n : Nat) (es : List Nat) :
    es.filter (s.clear n).valid = (es.filter s.valid).filter (· ≠ n) := by
  rw [List.filter_filter]
  refine List.filter_congr fun k _ => ?_
  by_cases hk : k = n <;> simp [St.clear, hk]

theorem filter_clear_of_notMem (s : St) {n : Nat} {es : List Nat} (hn : n ∉ es) :
    es.filter (s.clear n).valid = es.filter s.valid := by
  refine List.filter_congr fun k hk => Function.update_of_ne ?_ _ _
  rintro rfl
  exact hn hk

theorem Inv.cancel (hinv : Inv s h l) (n : Nat) :
    Inv (s.clear n) (upd (.cancel n) s h) l := by
  have hout : outcome (.cancel n) s = some ([], s.clear n) := rfl
  refine hinv.drop (· ≠ n) hout hinv.ring (List.Sublist.refl _) rfl (List.Sublist.refl _) ?_
    (filter_clear s n _) ?_
  · rw [upd_live hout, noneWoken]
    rfl
  · rw [filter_clear]

/-- What is served is no longer live. -/
theorem filter_taken {taken rest : List Nat} (hnodup : (taken ++ rest).Nodup) :
    (taken ++ rest).filter (· ∉ taken) = rest := by
  rw [List.filter_append, List.filter_eq_nil_iff.mpr fun k hk => by simp [hk], List.nil_append,
    List.filter_eq_self]
  exact fun k hk => decide_eq_true fun hmem => (List.nodup_append'.mp hnodup).2.2 hmem hk

theorem Serves.filter_rest {valid : Nat → Bool} {es es' : List Nat} {r : Option Nat}
    (hserves : Serves valid es r es') (hnodup : es.Nodup) :
    es'.filter (served valid r) = (es.filter valid).filter (· ∉ r.toList) := by
  have hall := hnodup.filter valid
  rw [hserves.filter hnodup] at hall ⊢
  exact (filter_taken hall).symm

theorem Inv.wakeOne_step (hinv : Inv s h l) (spurious : List (List Bool)) :
    ∃ woken s' l', outcome (.wakeOne spurious) s = some (woken, s') ∧
      Inv s' (upd (.wakeOne spurious) s h) l' := by
  obtain ⟨r, l', ring, o', hwake, hserves, hring, hover, hfirst⟩ := hinv.wakeOne spurious
  have hout : outcome (.wakeOne spurious) s = some (r.toList,
      { s with ring, overflow := o', valid := served s.valid r }) := by
    rw [outcome, hwake]
    rfl
  have hnodup : l.Nodup := (List.sublist_append_left l s.overflow).nodup hinv.nodup
  refine ⟨_, _, l', hout, hinv.drop (· ∉ r.toList) hout hring hserves.sublist rfl hover
    (upd_live hout) (hserves.filter_rest hinv.nodup) ?_⟩
  rcases hfirst with hfirst | rfl
  · rw [hfirst.filter_rest hnodup]
  · exact List.nil_sublist _

/-! ## `wake_all` -/

theorem drainUntil_all (fuel : Nat) (spurious : List (List Bool))
    (hring : RingHolds readyCapacity s.ring l) (hnodup : l.Nodup) (hl : l.length < fuel) :
    ∃ ring valid, drainUntil s.ring.enqueuePos fuel spurious s =
        some (l.filter s.valid, { s with ring, valid }) ∧
      RingHolds readyCapacity ring [] ∧ ∀ k ∉ l, valid k = s.valid k := by
  induction fuel generalizing spurious s l with
  | zero => exact absurd hl (Nat.not_lt_zero _)
  | succ fuel ih =>
    have hdiff := (hring.length_eq capacity_small).2
    cases l with
    | nil =>
      refine ⟨s.ring, s.valid, ?_, hring, fun _ _ => rfl⟩
      unfold drainUntil
      rw [if_neg (by simp [hdiff])]
      rfl
    | cons n l =>
      obtain ⟨hn, hnodup⟩ := List.nodup_cons.mp hnodup
      obtain ⟨ring, hpop, hring', henq⟩ :=
        hring.tryPop_cons capacity_pos capacity_dvd (spurious.headD [])
      obtain ⟨ring', valid, hdrain, hempty, hvalid⟩ :=
        ih (s := { s.clear n with ring }) spurious.tail hring' hnodup (by simpa using hl)
      refine ⟨ring', valid, ?_, hempty, fun k hk => ?_⟩
      · have hdrain : drainUntil s.ring.enqueuePos fuel spurious.tail { s.clear n with ring } =
            some (l.filter s.valid, { s with ring := ring', valid }) := by
          rw [← henq, ← filter_clear_of_notMem s hn]
          exact hdrain
        unfold drainUntil
        rw [if_pos (by simp [hdiff]), hpop]
        simp only [hdrain, Option.map_some, List.filter_cons]
      · rw [hvalid k (List.not_mem_of_not_mem_cons hk)]
        exact Function.update_of_ne (List.ne_of_not_mem_cons hk) _ _

theorem drainOverflow_all (s : St) {o : List Nat} (hnodup : o.Nodup) :
    ∃ valid, drainOverflow s o = (o.filter s.valid, { s with overflow := [], valid }) := by
  induction o generalizing s with
  | nil => exact ⟨s.valid, rfl⟩
  | cons n o ih =>
    obtain ⟨hn, hnodup⟩ := List.nodup_cons.mp hnodup
    obtain ⟨valid, hdrain⟩ := ih (s.clear n) hnodup
    refine ⟨valid, ?_⟩
    simp only [drainOverflow, hdrain, filter_clear_of_notMem s hn, List.filter_cons]
    rfl

theorem Inv.wakeAll_step (hinv : Inv s h l) (spurious : List (List Bool)) :
    ∃ woken s' l', outcome (.wakeAll spurious) s = some (woken, s') ∧
      Inv s' (upd (.wakeAll spurious) s h) l' := by
  obtain ⟨hnodupl, hnodupo, hdisjoint⟩ := List.nodup_append'.mp hinv.nodup
  obtain ⟨ring, valid, hdrain, hring, hvalid⟩ :=
    drainUntil_all (readyCapacity + 1) spurious hinv.ring hnodupl
      (Nat.lt_succ_of_le hinv.ring.length_le)
  obtain ⟨valid', hover⟩ := drainOverflow_all { s with ring, valid }
    (List.nodup_reverse.mpr hnodupo)
  simp only at hover
  have hsame : s.overflow.reverse.filter valid = s.overflow.reverse.filter s.valid :=
    List.filter_congr fun k hk => hvalid k fun hmem => hdisjoint hmem (List.mem_reverse.mp hk)
  have hout : outcome (.wakeAll spurious) s =
      some (l.filter s.valid ++ s.overflow.reverse.filter s.valid,
      { s with ring, overflow := [], valid := valid' }) := by
    simp only [outcome, wakeAll, hdrain, Option.map_some, hover, hsame]
  refine ⟨_, _, [], hout, hinv.drop _ hout hring (List.nil_sublist _) rfl (List.nil_sublist _)
    (upd_live hout) ?_ (List.nil_sublist _)⟩
  refine (List.filter_eq_nil_iff.mpr fun k hk => ?_).symm
  have hmem : k ∈ l.filter s.valid ++ s.overflow.reverse.filter s.valid := by
    simpa [or_and_right] using hk
  exact fun hnot => of_decide_eq_true hnot hmem

/-! ## Every run -/

theorem Inv.outcome (hinv : Inv s h l) (a : Act) :
    ∃ woken s' l', outcome a s = some (woken, s') ∧ Inv s' (upd a s h) l' := by
  cases a with
  | register spurious =>
    obtain ⟨s', l', hout, hinv'⟩ := hinv.register spurious
    exact ⟨[], s', l', hout, hinv'⟩
  | cancel n => exact ⟨[], s.clear n, l, rfl, hinv.cancel n⟩
  | wakeOne spurious => exact hinv.wakeOne_step spurious
  | wakeAll spurious => exact hinv.wakeAll_step spurious

end

abbrev CallRun : List Act → St × Hist → Prop :=
  Run (initHist (· = St.new) ⟨[], true⟩) (withHist step upd) Free

theorem inv_run {tr : List Act} {p : St × Hist} (hrun : CallRun tr p) : ∃ l, Inv p.1 p.2 l := by
  refine hrun.hist_invariant (I := fun s h => ∃ l, Inv s h l) ?_ ?_
  · rintro s rfl
    exact ⟨[], ringHolds_new capacity_small, List.nodup_nil, by simp [St.new], .nil,
      List.Sublist.refl _, fun _ => rfl⟩
  · rintro s h a s' ⟨l, hinv⟩ - hstep
    obtain ⟨woken, s'', l', hout, hinv'⟩ := hinv.outcome a
    have heq : s'' = s' := by simpa [step, hout] using hstep
    exact ⟨l', heq ▸ hinv'⟩

/-- Every call returns, however often its weak CASes fail. `wake_one` invokes one waker if there is
a live registration, and that of a live one; if there have never been more than 256 entries, it is
the oldest. -/
theorem wakes_in_order {tr : List Act} {s : St} {h : Hist} (hrun : CallRun tr (s, h)) :
    (∀ a, (outcome a s).isSome) ∧
    ∀ spurious, ∃ r s', wakeOne spurious s = some (r, s') ∧ (r = none ↔ h.live = []) ∧
      (∀ n, r = some n → n ∈ h.live) ∧ (h.within = true → r = h.live.head?) := by
  obtain ⟨l, hinv⟩ := inv_run hrun
  refine ⟨fun a => ?_, fun spurious => ?_⟩
  · obtain ⟨woken, s', _, hout, -⟩ := hinv.outcome a
    rw [hout]
    rfl
  · obtain ⟨r, l', ring, o', hwake, hserves, -⟩ := hinv.wakeOne spurious
    have hhead := hserves.head?
    refine ⟨r, _, hwake, ?_, fun n hn => ?_, fun hwithin => ?_⟩
    · rw [← hhead, List.head?_eq_none_iff, ← List.perm_nil, ← List.perm_nil]
      exact ⟨hinv.live.symm.trans, hinv.live.trans⟩
    · exact hinv.live.subset (List.mem_of_mem_head? (hhead.trans hn))
    · -- with nothing on the stack the ring holds the live entries in order
      have hlive := hinv.live
      rw [hinv.within hwithin, List.append_nil] at hlive hhead
      rw [← hhead, hinv.inOrder.eq_of_length hlive.length_eq]

def cancelFirst : List Act := [.register [true, true], .register [], .cancel 0]

/-- The first `try_push` fails twice for no reason, and so does the second `try_pop`. -/
theorem wakes_in_order_cancelFirst : ∃ r s' s h, CallRun cancelFirst.reverse (s, h) ∧
    h.live = [1] ∧ h.within = true ∧ wakeOne [[], [true, true]] s = some (r, s') ∧ r = some 1 := by
  obtain ⟨⟨s, h⟩, hrun, hlive, hwithin⟩ :
      ∃ p, CallRun cancelFirst.reverse p ∧ p.2.live = [1] ∧ p.2.within = true :=
    Run.exists_of_exec cancelFirst (St.new, ⟨[], true⟩) ⟨rfl, rfl⟩ (by decide +kernel)
  obtain ⟨r, s', hwake, -, -, hfirst⟩ := (wakes_in_order hrun).2 [[], [true, true]]
  exact ⟨r, s', s, h, hrun, hlive, hwithin, hwake, (hfirst hwithin).trans (by rw [hlive]; rfl)⟩

end Dtact.WaitQueue.Sequential
