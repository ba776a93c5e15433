import Dtact.Lib.SeqRing
import Dtact.Util.BoundedQueue.Basic

/-!
# `BoundedMpmcQueue` used by one thread

Calls made one after another, compared with a list bounded by the capacity. The weak CASes may fail
any finite number of times.
-/

namespace Dtact.BoundedQueue

open SeqRing

variable {T : Type}

/-! ## Calls -/

inductive Op (T : Type)
  | tryPush (v : T)
  | tryPop
deriving DecidableEq, Repr

def Op.start : Op T → Pc T
  | .tryPush v => .pushLoad v
  | .tryPop => .popLoad

def Op.isPush : Op T → Bool
  | .tryPush _ => true
  | .tryPop => false

def Pc.isCas : Pc T → Bool
  | .pushCas _ _ | .popCas _ => true
  | _ => false

/-- Run a call to its end. `spurious` says which of its weak CASes fail; past the
end of the list none does. -/
def call (c : Nat) : Nat → List Bool → Pc T → Queue T → Option (Ret T × Queue T)
  | 0, _, _, _ => none
  | _ + 1, _, .done r, q => some (r, q)
  | fuel + 1, spurious, pc, q =>
    match pcStep c (spurious.headD false) q pc with
    | none => none
    | some (pc', q') => call c fuel (if pc.isCas then spurious.tail else spurious) pc' q'

/-- The results of calls made one after another. -/
def calls (c fuel : Nat) : List (Op T × List Bool) → Queue T → Option (List (Ret T))
  | [], _ => some []
  | (op, spurious) :: ops, q =>
    match call c fuel spurious op.start q with
    | none => none
    | some (r, q') => (calls c fuel ops q').map (r :: ·)

/-- The results of a list bounded by `c`. -/
def fifo (c : Nat) : List (Op T) → List T → List (Ret T)
  | [], _ => []
  | .tryPush v :: ops, l =>
    if l.length < c then .ok :: fifo c ops (l ++ [v]) else .full v :: fifo c ops l
  | .tryPop :: ops, [] => .empty :: fifo c ops []
  | .tryPop :: ops, v :: l => .value v :: fifo c ops l

/-- Every call returns, with the result of the bounded list. -/
def MeetsFifo (c : Nat) (ops : List (Op T × List Bool)) : Prop :=
  ∃ fuel, calls c fuel ops (Queue.new T) = some (fifo c (ops.map Prod.fst) [])

def NoAdjacentPushes (ops : List (Op T)) : Prop :=
  ops.IsChain fun a b => ¬ (a.isPush = true ∧ b.isPush = true)

/-- The queue holds `l`, and no call is in progress. -/
structure Holds (c : Nat) (q : Queue T) (l : List T) (v : View T) : Prop where
  settled : Settled c q.seq q.data l v
  enq : q.enqueuePos = v.enq
  deq : q.dequeuePos = v.deq

namespace BoundedQueueLemmas

variable {c : Nat} {q : Queue T} {l : List T} {v : View T}

/-! ## Fuel -/

theorem call_mono {f f' : Nat} (hle : f ≤ f') {sp : List Bool} {pc : Pc T} {q : Queue T}
    {r : Ret T × Queue T} (h : call c f sp pc q = some r) : call c f' sp pc q = some r := by
  induction f generalizing f' sp pc q with
  | zero => simp [call] at h
  | succ f ih =>
    obtain ⟨f', rfl⟩ : ∃ k, f' = k + 1 := ⟨f' - 1, by omega⟩
    cases pc with
    | done r => simpa [call] using h
    | _ =>
      simp only [call] at h ⊢
      split at h
      · cases h
      · exact ih (by omega) h

theorem calls_mono {f f' : Nat} (hle : f ≤ f') {ops : List (Op T × List Bool)} {q : Queue T}
    {rs : List (Ret T)} (h : calls c f ops q = some rs) : calls c f' ops q = some rs := by
  induction ops generalizing q rs with
  | nil => exact h
  | cons op ops ih =>
    simp only [calls] at h ⊢
    split at h
    · cases h
    · next r q' hcall =>
      rw [call_mono hle hcall]
      obtain ⟨rs', hrs', rfl⟩ := Option.map_eq_some_iff.mp h
      exact Option.map_eq_some_iff.mpr ⟨rs', ih hrs', rfl⟩

/-- A call that returns `r` contributes `r`, whatever the fuel of the others. -/
theorem calls_cons {f : Nat} {op : Op T} {sp : List Bool} {ops : List (Op T × List Bool)}
    {q q' : Queue T} {r r' : Ret T} {rs : List (Ret T)}
    (hcall : call c f sp op.start q = some (r, q')) :
    (∃ fuel, calls c fuel ((op, sp) :: ops) q = some (r' :: rs)) ↔
      r' = r ∧ ∃ fuel, calls c fuel ops q' = some rs := by
  constructor
  · rintro ⟨fuel, h⟩
    simp only [calls] at h
    split at h
    · cases h
    · next r₁ q₁ hcall₁ =>
      have h₁ := call_mono (Nat.le_max_left f fuel) hcall
      have h₂ := call_mono (Nat.le_max_right f fuel) hcall₁
      rw [h₁] at h₂
      cases h₂
      obtain ⟨rs', hrs', heq⟩ := Option.map_eq_some_iff.mp h
      cases heq
      exact ⟨rfl, fuel, hrs'⟩
  · rintro ⟨rfl, fuel, h⟩
    refine ⟨max f fuel, ?_⟩
    simp only [calls, call_mono (Nat.le_max_left f fuel) hcall,
      calls_mono (Nat.le_max_right f fuel) h, Option.map_some]

/-! ## One call -/

/-- The queue after a push at `enqueue_pos`. -/
def afterPush (c : Nat) (q : Queue T) (x : T) : Queue T where
  seq := Function.update q.seq (q.enqueuePos % c) (wrappingAdd q.enqueuePos 1)
  data := Function.update q.data (q.enqueuePos % c) (some x)
  enqueuePos := wrappingAdd q.enqueuePos 1
  dequeuePos := q.dequeuePos

/-- The queue after a pop at `dequeue_pos`. -/
def afterPop (c : Nat) (q : Queue T) : Queue T where
  seq := Function.update q.seq (q.dequeuePos % c) (wrappingAdd q.dequeuePos c)
  data := q.data
  enqueuePos := q.enqueuePos
  dequeuePos := wrappingAdd q.dequeuePos 1

/-- A push that finds its own position in the cell succeeds, after any number of
spurious failures. -/
theorem call_push_ok (hd : diff (q.seq (q.enqueuePos % c)) q.enqueuePos = 0) (sp : List Bool)
    (x : T) : call c (2 * sp.length + 6) sp (.pushLoad x) q = some (.ok, afterPush c q x) := by
  suffices h : call c (2 * sp.length + 5) sp (.pushSeq x q.enqueuePos) q =
      some (.ok, afterPush c q x) by
    simpa [call, pcStep, Pc.isCas] using h
  induction sp with
  | nil => simp [call, pcStep, Pc.isCas, hd, afterPush]
  | cons b sp ih =>
    cases b with
    | false =>
      refine call_mono (f := 5) (Nat.le_add_left ..) ?_
      simp [call, pcStep, Pc.isCas, hd, afterPush]
    | true => simpa [call, pcStep, Pc.isCas, hd, Nat.mul_add] using ih

theorem call_push_full (hd : diff (q.seq (q.enqueuePos % c)) q.enqueuePos < 0) (sp : List Bool)
    (x : T) : call c (2 * sp.length + 6) sp (.pushLoad x) q = some (.full x, q) := by
  simp [call, pcStep, hd, Int.ne_of_lt hd]

/-- A pop that finds the successor of its position in the cell succeeds. -/
theorem call_pop_value (hd : diff (q.seq (q.dequeuePos % c)) (wrappingAdd q.dequeuePos 1) = 0)
    (sp : List Bool) : call c (2 * sp.length + 6) sp .popLoad q =
      some (.ofRead (q.data (q.dequeuePos % c)), afterPop c q) := by
  suffices h : call c (2 * sp.length + 5) sp (.popSeq q.dequeuePos) q =
      some (.ofRead (q.data (q.dequeuePos % c)), afterPop c q) by
    simpa [call, pcStep, Pc.isCas] using h
  induction sp with
  | nil => simp [call, pcStep, Pc.isCas, hd, afterPop]
  | cons b sp ih =>
    cases b with
    | false =>
      refine call_mono (f := 5) (Nat.le_add_left ..) ?_
      simp [call, pcStep, Pc.isCas, hd, afterPop]
    | true => simpa [call, pcStep, Pc.isCas, hd, Nat.mul_add] using ih

theorem call_pop_empty
    (hd : diff (q.seq (q.dequeuePos % c)) (wrappingAdd q.dequeuePos 1) < 0) (sp : List Bool) :
    call c (2 * sp.length + 6) sp .popLoad q = some (.empty, q) := by
  simp [call, pcStep, hd, Int.ne_of_lt hd]

/-- A pop that finds a cell of a later lap never returns. -/
theorem call_pop_stuck
    (hd : 0 < diff (q.seq (q.dequeuePos % c)) (wrappingAdd q.dequeuePos 1)) (sp : List Bool)
    (f : Nat) : call c f sp .popLoad q = none ∧ call c f sp (.popSeq q.dequeuePos) q = none := by
  induction f with
  | zero => exact ⟨rfl, rfl⟩
  | succ f ih =>
    refine ⟨by simpa [call, pcStep, Pc.isCas] using ih.2, ?_⟩
    simpa [call, pcStep, Pc.isCas, Int.ne_of_gt hd, Int.not_lt.mpr (Int.le_of_lt hd)] using ih.1

/-! ## The queue and the list -/

theorem holds_new : Holds c (Queue.new T) [] View.empty :=
  ⟨Settled.empty fun _ _ => rfl, rfl, rfl⟩

theorem holds_push (h : Holds c q l v) (hl : l.length < c) (hb : v.enq + 1 < 2 ^ 63) (x : T) :
    Holds c (afterPush c q x) (l ++ [x]) ((v.claimPush x).publish v.enq) := by
  have hw : wrappingAdd v.enq 1 = v.enq + 1 := wrappingAdd_eq (by omega)
  refine ⟨?_, ?_, h.deq⟩
  · simpa only [afterPush, h.enq, hw] using h.settled.push hl x
  · simp only [afterPush, h.enq, hw]
    rfl

theorem holds_pop {x : T} (h : Holds c q (x :: l) v) (ha : Allocatable c) (hb : v.enq < 2 ^ 63) :
    Holds c (afterPop c q) l (v.claimPop.release v.deq) := by
  have hle := h.settled.valid.deq_le
  unfold Allocatable at ha
  have hw : wrappingAdd v.deq 1 = v.deq + 1 := wrappingAdd_eq (by omega)
  have hw' : wrappingAdd v.deq c = v.deq + c := wrappingAdd_eq (by omega)
  refine ⟨?_, h.enq, ?_⟩
  · simpa only [afterPop, h.deq, hw'] using h.settled.pop
  · simp only [afterPop, h.deq, hw]
    rfl

/-! ## The signed differences -/

theorem diff_push_free (h : Holds c q l v) (hl : l.length < c) :
    diff (q.seq (q.enqueuePos % c)) q.enqueuePos = 0 := by
  rw [h.enq, h.settled.seq_enq hl]
  exact diff_self _

/-- In a full queue the producer finds the number of a published cell. -/
theorem diff_push_full (h : Holds c q l v) (ha : Allocatable c) (hl : l.length = c) (hc : 0 < c) :
    diff (q.seq (q.enqueuePos % c)) q.enqueuePos = 1 - (c : Int) := by
  have hlen := h.settled.length
  unfold Allocatable at ha
  rw [h.enq, h.settled.seq_enq_full hl hc, diff_eq (by omega) (by omega)]
  omega

theorem diff_pop_empty (h : Holds c q [] v) (hc : 0 < c) (hb : v.enq < 2 ^ 63) :
    diff (q.seq (q.dequeuePos % c)) (wrappingAdd q.dequeuePos 1) < 0 := by
  have hle := h.settled.valid.deq_le
  rw [h.deq, h.settled.seq_deq_nil hc, wrappingAdd_eq (by omega), diff_eq (by omega) (by omega)]
  omega

theorem diff_pop_value {x : T} (h : Holds c q (x :: l) v) (hb : v.enq < 2 ^ 63) :
    diff (q.seq (q.dequeuePos % c)) (wrappingAdd q.dequeuePos 1) = 0 ∧
      q.data (q.dequeuePos % c) = some x := by
  have hle := h.settled.valid.deq_le
  rw [h.deq, h.settled.seq_deq (List.cons_ne_nil x l), wrappingAdd_eq (by omega)]
  exact ⟨diff_self _, h.settled.data_deq⟩

/-! ## All calls -/

/-- What the calls still to come must satisfy when the queue holds `l`. -/
def Safe (c : Nat) (l : List T) (ops : List (Op T)) : Prop :=
  2 ≤ c ∨ (NoAdjacentPushes ops ∧ (l ≠ [] → ∀ op ∈ ops.head?, op.isPush = false))

theorem noAdjacentPushes_cons {op : Op T} {ops : List (Op T)} :
    NoAdjacentPushes (op :: ops) ↔
      (op.isPush = true → ∀ op' ∈ ops.head?, op'.isPush = false) ∧ NoAdjacentPushes ops := by
  cases ops with
  | nil => simp [NoAdjacentPushes]
  | cons op' ops => simp [NoAdjacentPushes, List.isChain_cons_cons]

theorem calls_iff (ha : Allocatable c) (hc : 0 < c) (ops : List (Op T × List Bool))
    (h : Holds c q l v) (hb : v.enq + ops.length < 2 ^ 63) :
    (∃ fuel, calls c fuel ops q = some (fifo c (ops.map Prod.fst) l)) ↔
      Safe c l (ops.map Prod.fst) := by
  induction ops generalizing q l v with
  | nil => exact ⟨fun _ => Or.inr ⟨by simp [NoAdjacentPushes], by simp⟩, fun _ => ⟨0, rfl⟩⟩
  | cons head ops ih =>
    obtain ⟨op, sp⟩ := head
    rw [List.length_cons] at hb
    have hle : l.length ≤ c := h.settled.length_le
    cases op with
    | tryPush x =>
      rw [List.map_cons, fifo]
      by_cases hl : l.length < c
      · rw [if_pos hl]
        have hf := call_push_ok (diff_push_free h hl) sp x
        rw [calls_cons hf, ih (holds_push h hl (by omega) x)
          (by simp only [View.publish, View.claimPush]; omega)]
        simp only [Safe, noAdjacentPushes_cons, Op.isPush]
        by_cases hc₂ : 2 ≤ c
        · simp [hc₂]
        · obtain rfl : l = [] := List.eq_nil_of_length_eq_zero (by omega)
          simp [hc₂, and_comm]
      · have hl : l.length = c := by omega
        rw [if_neg (by omega)]
        have hd := diff_push_full h ha hl hc
        by_cases hc₂ : 2 ≤ c
        · have hf := call_push_full (hd.trans_lt (by omega)) sp x
          rw [calls_cons hf, ih h (by omega)]
          simp [Safe, hc₂]
        · -- one cell: it looks free, and the push overwrites it
          have hf := call_push_ok (hd.trans (by omega)) sp x
          rw [calls_cons hf]
          have hne : l ≠ [] := by
            rintro rfl
            simp at hl
            omega
          simp [Safe, hc₂, hne, Op.isPush]
    | tryPop =>
      rw [List.map_cons]
      cases l with
      | nil =>
        rw [fifo]
        have hf := call_pop_empty (diff_pop_empty h hc (by omega)) sp
        rw [calls_cons hf, ih h (by omega)]
        simp [Safe, noAdjacentPushes_cons, Op.isPush]
      | cons x l =>
        rw [fifo]
        obtain ⟨hd, hx⟩ := diff_pop_value h (by omega)
        have hf := call_pop_value hd sp
        rw [hx] at hf
        rw [calls_cons hf, ih (holds_pop h ha (by omega))
          (by simp only [View.release, View.claimPop]; omega)]
        rw [List.length_cons] at hle
        by_cases hc₂ : 2 ≤ c
        · simp [Safe, hc₂, Ret.ofRead]
        · obtain rfl : l = [] := List.eq_nil_of_length_eq_zero (by omega)
          simp [Safe, hc₂, noAdjacentPushes_cons, Op.isPush, Ret.ofRead]

end BoundedQueueLemmas

open BoundedQueueLemmas

/-! ## The result -/

/-- Calls made one after another have the results of a FIFO list bounded by the
effective capacity exactly when the capacity argument is at least two or no push
directly follows a push. -/
theorem fifo_iff (capacity : Nat) (ha : Allocatable (effectiveCapacity capacity))
    (ops : List (Op T × List Bool)) (hlen : ops.length < 2 ^ 63) :
    MeetsFifo (effectiveCapacity capacity) ops ↔
      2 ≤ capacity ∨ NoAdjacentPushes (ops.map Prod.fst) := by
  have hc : 0 < effectiveCapacity capacity := by
    unfold effectiveCapacity
    omega
  have hc₂ : 2 ≤ effectiveCapacity capacity ↔ 2 ≤ capacity := by
    unfold effectiveCapacity
    omega
  unfold MeetsFifo
  rw [calls_iff ha hc ops holds_new (by simpa [View.empty] using hlen)]
  simp [Safe, hc₂]

/-- Capacity one, with a pop between the pushes. -/
theorem fifo_iff_alternating :
    MeetsFifo (effectiveCapacity 1) [(.tryPush 7, [true]), (.tryPop, []), (.tryPush 8, [])] :=
  (fifo_iff 1 (by unfold Allocatable effectiveCapacity; decide) _ (by decide)).mpr
    (Or.inr (by simp [NoAdjacentPushes, Op.isPush]))

/-- Capacity one, two pushes: the second one succeeds and overwrites the first,
and no fuel is enough for the pop that follows. -/
theorem capacity_one_overwrites :
    ¬ MeetsFifo (effectiveCapacity 1) [(.tryPush 7, []), (.tryPush 8, [])] ∧
    (∃ fuel, calls (effectiveCapacity 1) fuel [(.tryPush 7, []), (.tryPush 8, [])]
      (Queue.new Nat) = some [.ok, .ok]) ∧
    ∀ fuel, calls (effectiveCapacity 1) fuel
      [(.tryPush 7, []), (.tryPush 8, []), (.tryPop, [])] (Queue.new Nat) = none := by
  have hrun : calls 1 6 [(.tryPush 7, []), (.tryPush 8, [])] (Queue.new Nat) = some [.ok, .ok] :=
    rfl
  refine ⟨?_, ⟨6, hrun⟩, fun fuel => ?_⟩
  · rintro ⟨fuel, h⟩
    have h₁ := calls_mono (Nat.le_max_left 6 fuel) hrun
    have h₂ := calls_mono (Nat.le_max_right 6 fuel) h
    rw [show effectiveCapacity 1 = 1 from rfl, h₁] at h₂
    simp [fifo] at h₂
  · rw [Option.eq_none_iff_forall_ne_some]
    intro rs h
    have h₁ := calls_mono (Nat.le_max_right 6 fuel) h
    have hfirst : call 1 6 [] (.pushLoad 7) (Queue.new Nat) =
      some (.ok, afterPush 1 (Queue.new Nat) 7) := rfl
    have hsecond : call 1 6 [] (.pushLoad 8) (afterPush 1 (Queue.new Nat) 7) =
      some (.ok, afterPush 1 (afterPush 1 (Queue.new Nat) 7) 8) := rfl
    have hstuck := call_pop_stuck (c := 1) (q := afterPush 1 (afterPush 1 (Queue.new Nat) 7) 8)
      (by decide) [] (max 6 fuel)
    simp only [show effectiveCapacity 1 = 1 from rfl, calls, Op.start,
      call_mono (Nat.le_max_left 6 fuel) hfirst, call_mono (Nat.le_max_left 6 fuel) hsecond,
      hstuck.1, Option.map_none] at h₁
    cases h₁

end Dtact.BoundedQueue
