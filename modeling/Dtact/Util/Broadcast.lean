import Mathlib.Logic.Function.Basic
import Dtact.Lib.SeqRing
import Dtact.Lib.Transition
import Dtact.Words

/-!
# The broadcast channel

A ring of slots, each with the sequence number of the value in it. `send` takes the next number and
overwrites its slot. A receiver compares its cursor with the number in the slot: equal is the value,
greater means that it has been overtaken. Here `send` and `try_recv_one` are one step each. Two
sequence numbers are sentinels: `u64::MAX` for a slot that was never written, `u64::MAX - 1` for one
being written.

Results:
1. `sentinel_closes_early`: the send that gets the number `u64::MAX - 1` is lost.
2. `broadcast_delivery`: with fewer sends, every receiver gets values in the order in which they
   were sent, is told how many it has missed, and is told `Closed` only at the end.
-/

namespace Dtact.Broadcast

open Transition

/-- `u64::MAX` -/
def unwritten : Nat := 2 ^ 64 - 1
/-- `u64::MAX - 1` -/
def transient : Nat := 2 ^ 64 - 2

/-- `Slot`; a value of `none` is uninitialised memory. -/
structure Slot (T : Type) where
  seq : Nat
  value : Option T

/-- `Shared`. `strongCount` is the count of the `Arc`. -/
structure Shared (T : Type) where
  slots : Nat → Slot T
  nextSeq : Nat
  senderCount : Nat
  strongCount : Nat

inductive RecvResult (T : Type)
  | ok (value : Option T)
  | lagged (skipped : Nat)
  | closed
deriving DecidableEq

variable {T : Type}

def Shared.receiverCount (s : Shared T) : Nat := s.strongCount - s.senderCount

/-- `Sender::send` for a channel of capacity `c`. -/
def Shared.send (c : Nat) (s : Shared T) (value : T) : Shared T :=
  if s.receiverCount = 0 then s
  else
    let seq := s.nextSeq
    { s with
      nextSeq := wrappingAdd seq 1
      slots := Function.update s.slots (seq % c) ⟨seq, some value⟩ }

/-- `Receiver::try_recv_one`, with the cursor it leaves. The second load of the
sequence number finds what the first one found. -/
def Shared.tryRecvOne (c : Nat) (s : Shared T) (nextSeq : Nat) : Option (RecvResult T) × Nat :=
  let slot := s.slots (nextSeq % c)
  if slot.seq = unwritten ∨ slot.seq = transient then (none, nextSeq)
  else if nextSeq = slot.seq then (some (.ok slot.value), wrappingAdd nextSeq 1)
  else if nextSeq < slot.seq then (some (.lagged (slot.seq - nextSeq)), slot.seq)
  else (none, nextSeq)

/-- Where a receiver is in `poll_recv`. -/
inductive PollPc (T : Type)
  | idle
  | tryRecv
  | isClosed
  | lastTry
  | tryAgain
  | isClosedAgain
  | lastTryAgain
  | ready (r : RecvResult T)
  | pending

structure Receiver (T : Type) where
  nextSeq : Nat
  pc : PollPc T

def PollPc.resting : PollPc T → Bool
  | .idle | .ready _ | .pending => true
  | _ => false

/-- What the next step of a poll returns as its result. -/
def Receiver.result (c : Nat) (s : Shared T) (r : Receiver T) : Option (RecvResult T) :=
  match r.pc with
  | .tryRecv | .tryAgain => (s.tryRecvOne c r.nextSeq).1
  | .lastTry | .lastTryAgain => some ((s.tryRecvOne c r.nextSeq).1.getD .closed)
  | _ => none

/-- One step of `poll_recv`. -/
def Receiver.run (c : Nat) (s : Shared T) (r : Receiver T) : Option (Receiver T) :=
  let (result, nextSeq) := s.tryRecvOne c r.nextSeq
  match r.pc with
  | .tryRecv => some ⟨nextSeq, result.elim .isClosed .ready⟩
  | .isClosed => some { r with pc := if s.senderCount = 0 then .lastTry else .tryAgain }
  | .lastTry => some ⟨nextSeq, .ready (result.getD .closed)⟩
  | .tryAgain => some ⟨nextSeq, result.elim .isClosedAgain .ready⟩
  | .isClosedAgain => some { r with pc := if s.senderCount = 0 then .lastTryAgain else .pending }
  | .lastTryAgain => some ⟨nextSeq, .ready (result.getD .closed)⟩
  | _ => none

/-! ## The channel -/

structure St (T : Type) where
  shared : Shared T
  receivers : Nat → Option (Receiver T)

/-- `channel`: a sender, and a receiver with the number 0. -/
def St.init : St T where
  shared := ⟨fun _ => ⟨unwritten, none⟩, 0, 1, 2⟩
  receivers := Function.update (fun _ => none) 0 (some ⟨0, .idle⟩)

/-- The effective capacity of `channel`. -/
def effectiveCapacity (capacity : Nat) : Nat := max capacity 1

inductive Act (T : Type)
  | send (value : T)
  | cloneSender
  | dropSender
  | cloneReceiver (r new : Nat)
  | dropReceiver (r : Nat)
  | poll (r : Nat)
  | run (r : Nat)

def St.setReceiver (s : St T) (r : Nat) (rc : Receiver T) : St T :=
  { s with receivers := Function.update s.receivers r (some rc) }

/-- The receiver, between two polls. -/
def St.atRest (s : St T) (r : Nat) : Option (Receiver T) :=
  (s.receivers r).filter fun rc => rc.pc.resting

def step (c : Nat) : Act T → St T → Option (St T)
  | .send value, s =>
    if 0 < s.shared.senderCount then some { s with shared := s.shared.send c value } else none
  | .cloneSender, s =>
    if 0 < s.shared.senderCount then
      some { s with
        shared :=
          { s.shared with
            senderCount := s.shared.senderCount + 1
            strongCount := s.shared.strongCount + 1 } }
    else none
  | .dropSender, s =>
    if 0 < s.shared.senderCount then
      some { s with
        shared :=
          { s.shared with
            senderCount := s.shared.senderCount - 1
            strongCount := s.shared.strongCount - 1 } }
    else none
  | .cloneReceiver r new, s =>
    match s.atRest r, s.receivers new with
    | some rc, none =>
      some ({ s with
        shared := { s.shared with strongCount := s.shared.strongCount + 1 } }.setReceiver new
          ⟨rc.nextSeq, .idle⟩)
    | _, _ => none
  | .dropReceiver r, s =>
    (s.atRest r).map fun _ =>
      { shared := { s.shared with strongCount := s.shared.strongCount - 1 }
        receivers := Function.update s.receivers r none }
  | .poll r, s => (s.atRest r).map fun rc => s.setReceiver r { rc with pc := .tryRecv }
  | .run r, s => (s.receivers r).bind fun rc => (rc.run c s.shared).map (s.setReceiver r)

/-! ## The history -/

/-- A result, with the cursor before and after it. -/
structure Entry (T : Type) where
  before : Nat
  result : RecvResult T
  after : Nat
deriving DecidableEq

structure Hist (T : Type) where
  /-- The values sent, in the order of their sequence numbers. -/
  sent : List T
  /-- The cursor with which each receiver was created. -/
  origin : Nat → Nat
  /-- What each receiver was told, the latest first. -/
  log : Nat → List (Entry T)

def Hist.empty : Hist T := ⟨[], fun _ => 0, fun _ => []⟩

def upd (c : Nat) (a : Act T) (s : St T) (h : Hist T) : Hist T :=
  match a with
  | .send value => if s.shared.receiverCount = 0 then h else { h with sent := h.sent ++ [value] }
  | .cloneReceiver r new =>
    { h with
      origin := Function.update h.origin new (((s.receivers r).map Receiver.nextSeq).getD 0)
      log := Function.update h.log new [] }
  | .run r =>
    match s.receivers r with
    | some rc =>
      match rc.result c s.shared with
      | some result =>
        let e := ⟨rc.nextSeq, result, (s.shared.tryRecvOne c rc.nextSeq).2⟩
        { h with log := Function.update h.log r (e :: h.log r) }
      | none => h
    | none => h
  | _ => h

/-! ## The properties -/

/-- What a receiver was told is true. -/
def Entry.Holds (s : Shared T) (sent : List T) (e : Entry T) : Prop :=
  match e.result with
  | .ok value => e.after = e.before + 1 ∧ ∃ v, sent[e.before]? = some v ∧ value = some v
  | .lagged skipped => e.after = e.before + skipped
  | .closed => e.after = e.before ∧ s.senderCount = 0 ∧ e.before = sent.length

/-- Every entry begins where the one before it ended, the first one at `origin`, and
the latest ends at the cursor. -/
def Chain (origin : Nat) : List (Entry T) → Nat → Prop
  | [], cursor => cursor = origin
  | e :: rest, cursor => e.after = cursor ∧ Chain origin rest e.before

/-- The sequence number of a value that was delivered. -/
def Entry.delivered (e : Entry T) : Option Nat :=
  match e.result with
  | .ok _ => some e.before
  | _ => none

structure Delivers (s : St T) (h : Hist T) : Prop where
  holds : ∀ r, ∀ e ∈ h.log r, e.Holds s.shared h.sent
  chain : ∀ r rc, s.receivers r = some rc → Chain (h.origin r) (h.log r) rc.nextSeq
  /-- Nothing is delivered twice or out of order. -/
  ordered : ∀ r, ((h.log r).filterMap Entry.delivered).Pairwise (· > ·)
  cursor_le : ∀ r rc, s.receivers r = some rc → rc.nextSeq ≤ h.sent.length

/-- The send does not get a sentinel as its sequence number. -/
def BelowSentinels (s : St T) : Act T → Prop
  | .send _ => s.shared.nextSeq < transient
  | _ => True

instance (s : St T) : (a : Act T) → Decidable (BelowSentinels s a)
  | .send _ => inferInstanceAs (Decidable (_ < _))
  | .cloneSender | .dropSender | .cloneReceiver .. | .dropReceiver _ | .poll _ | .run _ =>
    inferInstanceAs (Decidable True)

abbrev BroadcastRun (capacity : Nat) (ok : St T → Act T → Prop) :
    List (Act T) → St T × Hist T → Prop :=
  Run (initHist (· = .init) .empty)
    (withHist (step (effectiveCapacity capacity)) (upd (effectiveCapacity capacity)))
    fun p a => ok p.1 a

/-! ## The ring -/

/-- The slots hold the values of the last `c` sends; a slot of no send is unwritten. -/
structure Ring (c : Nat) (s : Shared T) (sent : List T) : Prop where
  next : s.nextSeq = sent.length
  bound : sent.length ≤ transient
  recent : ∀ k v, sent[k]? = some v → sent.length ≤ k + c → s.slots (k % c) = ⟨k, some v⟩
  fresh : ∀ k < c, sent.length ≤ k → s.slots k = ⟨unwritten, none⟩

variable {c k r : Nat} {s : Shared T} {sent : List T} {rc : Receiver T} {e : Entry T} {h : Hist T}

/-- The last number below `n` whose slot is the one of `k`. -/
theorem exists_last_lap {n : Nat} (hc : 0 < c) (hk : k < n) :
    ∃ m, k ≤ m ∧ m < n ∧ n ≤ m + c ∧ m % c = k % c := by
  have hlt : (n - 1 - k) % c < c := Nat.mod_lt _ hc
  have hdiv := Nat.mod_add_div (n - 1 - k) c
  refine ⟨k + c * ((n - 1 - k) / c), by omega, by omega, by omega, ?_⟩
  rw [Nat.add_mul_mod_self_left]

theorem Ring.init (c : Nat) : Ring c (St.init : St T).shared [] := by
  refine ⟨rfl, Nat.zero_le _, fun k v h => ?_, fun k _ _ => rfl⟩
  cases h

theorem Ring.send (hr : Ring c s sent) (hrc : s.receiverCount ≠ 0) (hok : s.nextSeq < transient)
    (v : T) : Ring c (s.send c v) (sent ++ [v]) := by
  have hnext := hr.next
  simp only [Shared.send, if_neg hrc, hnext] at hok ⊢
  refine ⟨?_, ?_, fun k w hk hlap => ?_, fun k hk hlap => ?_⟩
  · rw [List.length_append, List.length_singleton]
    have hlt : transient < 2 ^ 64 - 1 := by decide
    exact wrappingAdd_eq (by omega)
  · rw [List.length_append, List.length_singleton]
    exact hok
  · rw [List.length_append, List.length_singleton] at hlap
    rw [List.getElem?_append] at hk
    split at hk
    · next hlt =>
      change Function.update _ _ _ _ = _
      have hne : k % c ≠ sent.length % c := fun heq =>
        hlt.ne (SeqRing.eq_of_mod_eq heq hlt.le hlap)
      rw [Function.update_of_ne hne]
      exact hr.recent k w hk (by omega)
    · next hge =>
      obtain ⟨hlt, rfl⟩ := List.getElem?_eq_some_iff.mp hk
      have heq : k = sent.length := by
        rw [List.length_singleton] at hlt
        omega
      subst heq
      simp
  · rw [List.length_append, List.length_singleton] at hlap
    have hne : k ≠ sent.length % c := by
      rw [Nat.mod_eq_of_lt (by omega)]
      omega
    change Function.update _ _ _ _ = _
    rw [Function.update_of_ne hne]
    exact hr.fresh k hk (by omega)

/-- What `try_recv_one` does with a cursor `k`, by the sends made so far. -/
inductive Received (sent : List T) (k : Nat) : Option (RecvResult T) × Nat → Prop
  | empty : k = sent.length → Received sent k (none, k)
  | value (v : T) : sent[k]? = some v → Received sent k (some (.ok (some v)), k + 1)
  | overtaken (m : Nat) : k < m → m < sent.length → Received sent k (some (.lagged (m - k)), m)

theorem Ring.tryRecvOne (hc : 0 < c) (hr : Ring c s sent) (hk : k ≤ sent.length) :
    Received sent k (s.tryRecvOne c k) := by
  have hbound := hr.bound
  unfold transient at hbound
  rcases Nat.lt_or_eq_of_le hk with hlt | rfl
  · -- The slot has the last number of its class, which is the cursor's or a later one.
    obtain ⟨m, hkm, hmn, hlap, hmod⟩ := exists_last_lap hc hlt
    have hslot := hr.recent m _ (List.getElem?_eq_getElem hmn) hlap
    rw [hmod] at hslot
    have hreal : ¬ (m = unwritten ∨ m = transient) := by
      simp only [unwritten, transient]
      omega
    simp only [Shared.tryRecvOne, hslot, if_neg hreal]
    split
    · next heq =>
      subst heq
      rw [wrappingAdd_eq (by omega)]
      exact .value _ (List.getElem?_eq_getElem hmn)
    · next hne =>
      have hgt : k < m := Nat.lt_of_le_of_ne hkm hne
      rw [if_pos hgt]
      exact .overtaken m hgt hmn
  · have hnone : s.tryRecvOne c sent.length = (none, sent.length) := by
      rcases Nat.lt_or_ge sent.length c with hsmall | hlarge
      · have hslot := hr.fresh _ hsmall (Nat.le_refl _)
        simp only [Shared.tryRecvOne, Nat.mod_eq_of_lt hsmall, hslot, true_or, if_true]
      · -- The slot is still at the number of the lap before.
        have hlt : sent.length - c < sent.length := by omega
        have hslot := hr.recent _ _ (List.getElem?_eq_getElem hlt) (by omega)
        rw [← Nat.mod_eq_sub_mod hlarge] at hslot
        simp only [Shared.tryRecvOne, hslot]
        split
        · rfl
        · rw [if_neg (by omega), if_neg (by omega)]
    rw [hnone]
    exact .empty rfl

/-! ## A poll -/

def PollPc.closing : PollPc T → Bool
  | .lastTry | .lastTryAgain => true
  | _ => false

theorem Shared.tryRecvOne_none (s : Shared T) (c k : Nat) (h : (s.tryRecvOne c k).1 = none) :
    (s.tryRecvOne c k).2 = k := by
  revert h
  simp only [Shared.tryRecvOne]
  split
  · exact fun _ => rfl
  · split
    · exact fun h => by cases h
    · split
      · exact fun h => by cases h
      · exact fun _ => rfl

/-- A step of a poll looks at the senders or stores its result. -/
theorem Receiver.run_cases {rc' : Receiver T} (h : rc.run c s = some rc') :
    (rc.result c s = none ∧ rc'.nextSeq = rc.nextSeq ∧
      (rc'.pc.closing → s.senderCount = 0)) ∨
    ∃ result, rc.result c s = some result ∧ rc'.nextSeq = (s.tryRecvOne c rc.nextSeq).2 ∧
      rc'.pc = .ready result := by
  obtain ⟨nextSeq, pc⟩ := rc
  have hkeep := s.tryRecvOne_none c nextSeq
  simp only [Receiver.run] at h
  cases pc with
  | idle | ready _ | pending => cases h
  | tryRecv | tryAgain =>
    cases h
    cases hres : (s.tryRecvOne c nextSeq).1 with
    | none => exact .inl ⟨hres, hkeep hres, by simp [PollPc.closing]⟩
    | some result => exact .inr ⟨result, hres, rfl, rfl⟩
  | isClosed | isClosedAgain =>
    cases h
    refine .inl ⟨rfl, rfl, ?_⟩
    split
    · next hs => exact fun _ => hs
    · exact fun h => by cases h
  | lastTry | lastTryAgain =>
    cases h
    exact .inr ⟨_, rfl, rfl, rfl⟩

/-- The result of a poll is true of the sends made so far. -/
theorem Ring.result_holds {result : RecvResult T} (hc : 0 < c) (hr : Ring c s sent)
    (hk : rc.nextSeq ≤ sent.length) (hclosing : rc.pc.closing → s.senderCount = 0)
    (h : rc.result c s = some result) :
    Entry.Holds s sent ⟨rc.nextSeq, result, (s.tryRecvOne c rc.nextSeq).2⟩ ∧
      (s.tryRecvOne c rc.nextSeq).2 ≤ sent.length := by
  have hrecv := hr.tryRecvOne hc hk
  unfold Receiver.result at h
  generalize s.tryRecvOne c rc.nextSeq = p at h hrecv ⊢
  -- A result that is not the one of `try_recv_one` is a `Closed` with nothing left.
  have hcases : p.1 = some result ∨ p.1 = none ∧ result = .closed ∧ rc.pc.closing := by
    generalize hpc : rc.pc = pc at h
    cases pc with
    | tryRecv | tryAgain =>
      exact .inl h
    | lastTry | lastTryAgain =>
      cases hp : p.1 with
      | none =>
        simp only [hp, Option.getD_none, Option.some.injEq] at h
        exact .inr ⟨rfl, h.symm, rfl⟩
      | some r =>
        rw [hp] at h
        exact .inl h
    | _ =>
      cases h
  cases hrecv with
  | empty hend =>
    rcases hcases with hcases | ⟨-, rfl, hpc⟩
    · cases hcases
    · exact ⟨⟨rfl, hclosing hpc, hend⟩, hk⟩
  | value v hv =>
    rcases hcases with hcases | ⟨hcases, -⟩
    · cases hcases
      exact ⟨⟨rfl, v, hv, rfl⟩, (List.getElem?_eq_some_iff.mp hv).1⟩
    · cases hcases
  | overtaken m hlt hm =>
    rcases hcases with hcases | ⟨hcases, -⟩
    · cases hcases
      exact ⟨(Nat.add_sub_of_le hlt.le).symm, hm.le⟩
    · cases hcases

/-! ## The log of a receiver -/

theorem Entry.Holds.before_le (h : e.Holds s sent) : e.before ≤ e.after := by
  unfold Entry.Holds at h
  split at h
  · exact h.1 ▸ Nat.le_succ _
  · exact h ▸ Nat.le_add_right ..
  · exact h.1.ge

theorem Entry.Holds.delivered_lt (h : e.Holds s sent) (hk : e.delivered = some k) :
    k < e.after := by
  unfold Entry.Holds at h
  unfold Entry.delivered at hk
  split at hk
  · next hres =>
    cases hk
    rw [hres] at h
    exact h.1 ▸ Nat.lt_succ_self _
  · cases hk

/-- While a sender is alive nothing was told that a later send could change. -/
theorem Entry.Holds.grow {s' : Shared T} (h : e.Holds s sent) (hs : 0 < s.senderCount)
    (rest : List T) : e.Holds s' (sent ++ rest) := by
  unfold Entry.Holds at h ⊢
  split at h
  · obtain ⟨hafter, v, hv, hval⟩ := h
    refine ⟨hafter, v, ?_, hval⟩
    rw [List.getElem?_append_left (List.getElem?_eq_some_iff.mp hv).1]
    exact hv
  · exact h
  · exact absurd h.2.1 hs.ne'

/-- What was delivered lies below the cursor. -/
theorem Chain.delivered_lt {origin cursor : Nat} {log : List (Entry T)}
    (h : Chain origin log cursor) (hholds : ∀ e ∈ log, e.Holds s sent) :
    ∀ k ∈ log.filterMap Entry.delivered, k < cursor := by
  induction log generalizing cursor with
  | nil => simp
  | cons e log ih =>
    obtain ⟨rfl, hrest⟩ := h
    have he := hholds e (.head _)
    intro k hk
    obtain ⟨e', hmem, hdel⟩ := List.mem_filterMap.mp hk
    rcases List.mem_cons.mp hmem with rfl | hmem
    · exact he.delivered_lt hdel
    · have hlt := ih hrest (fun e'' h'' => hholds e'' (.tail _ h'')) k
        (List.mem_filterMap.mpr ⟨e', hmem, hdel⟩)
      exact hlt.trans_le he.before_le

/-! ## The invariant -/

structure Inv (c : Nat) (s : St T) (h : Hist T) : Prop where
  ring : Ring c s.shared h.sent
  delivers : Delivers s h
  /-- The last look at the ring comes after the last sender. -/
  closing : ∀ r rc, s.receivers r = some rc → rc.pc.closing → s.shared.senderCount = 0

theorem inv_init (c : Nat) : Inv c (.init : St T) .empty := by
  have hrc {r : Nat} {rc : Receiver T} (h : (St.init : St T).receivers r = some rc) :
      rc = ⟨0, .idle⟩ := by
    simp only [St.init, Function.update_apply] at h
    split at h
    · exact (Option.some.inj h).symm
    · cases h
  refine ⟨Ring.init c, ⟨fun r e he => ?_, fun r rc h => ?_, fun r => .nil, fun r rc h => ?_⟩,
    fun r rc h hpc => ?_⟩
  · cases he
  · rw [hrc h]
    rfl
  · rw [hrc h]
    exact Nat.zero_le _
  · rw [hrc h] at hpc
    cases hpc

theorem Inv.sender {s : St T} (hi : Inv c s h) (hs : 0 < s.shared.senderCount) {shared : Shared T}
    {rest : List T} (hr : Ring c shared (h.sent ++ rest)) :
    Inv c { s with shared } { h with sent := h.sent ++ rest } := by
  obtain ⟨-, ⟨hholds, hchain, hordered, hle⟩, hclosing⟩ := hi
  refine ⟨hr, ⟨fun r e he => (hholds r e he).grow hs rest, hchain, hordered, fun r rc hrc => ?_⟩,
    fun r rc hrc hpc => absurd (hclosing r rc hrc hpc) hs.ne'⟩
  have hlen := hle r rc hrc
  rw [List.length_append]
  exact hlen.trans (Nat.le_add_right ..)

theorem Ring.counts (hr : Ring c s sent) (senderCount strongCount : Nat) :
    Ring c { s with senderCount, strongCount } sent :=
  ⟨hr.next, hr.bound, hr.recent, hr.fresh⟩

theorem Inv.sender_quiet {s : St T} (hi : Inv c s h) (hs : 0 < s.shared.senderCount)
    (senderCount strongCount : Nat) :
    Inv c { s with shared := { s.shared with senderCount, strongCount } } h := by
  have hring := hi.ring.counts senderCount strongCount
  rw [← List.append_nil h.sent] at hring
  have hinv := hi.sender hs hring
  rwa [List.append_nil] at hinv

/-- What a receiver with this log has to meet. -/
structure Receiver.Fits (s : Shared T) (sent : List T) (origin : Nat) (log : List (Entry T))
    (rc : Receiver T) : Prop where
  holds : ∀ e ∈ log, e.Holds s sent
  chain : Chain origin log rc.nextSeq
  ordered : (log.filterMap Entry.delivered).Pairwise (· > ·)
  cursor_le : rc.nextSeq ≤ sent.length
  closing : rc.pc.closing → s.senderCount = 0

theorem Inv.fits {s : St T} (hi : Inv c s h) (hrc : s.receivers r = some rc) :
    rc.Fits s.shared h.sent (h.origin r) (h.log r) :=
  ⟨hi.delivers.holds r, hi.delivers.chain r rc hrc, hi.delivers.ordered r,
    hi.delivers.cursor_le r rc hrc, hi.closing r rc hrc⟩

theorem Inv.receiver {origin : Nat} {s : St T} {log : List (Entry T)} (hi : Inv c s h)
    (hrc : rc.Fits s.shared h.sent origin log) :
    Inv c (s.setReceiver r rc)
      { h with
        origin := Function.update h.origin r origin, log := Function.update h.log r log } := by
  have hreceivers {q : Nat} {rq : Receiver T} (hq : (s.setReceiver r rc).receivers q = some rq) :
      q = r ∧ rq = rc ∨ q ≠ r ∧ s.receivers q = some rq := by
    simp only [St.setReceiver, Function.update_apply] at hq
    split at hq
    · next heq => exact .inl ⟨heq, (Option.some.inj hq).symm⟩
    · next hne => exact .inr ⟨hne, hq⟩
  refine ⟨hi.ring, ⟨fun q => ?_, fun q rq hq => ?_, fun q => ?_, fun q rq hq => ?_⟩,
    fun q rq hq => ?_⟩
  · rcases eq_or_ne q r with rfl | hne
    · simp only [Function.update_self]
      exact hrc.holds
    · simp only [Function.update_of_ne hne]
      exact hi.delivers.holds q
  · rcases hreceivers hq with ⟨rfl, rfl⟩ | ⟨hne, hq⟩
    · simp only [Function.update_self]
      exact hrc.chain
    · simp only [Function.update_of_ne hne]
      exact hi.delivers.chain q rq hq
  · rcases eq_or_ne q r with rfl | hne
    · simp only [Function.update_self]
      exact hrc.ordered
    · simp only [Function.update_of_ne hne]
      exact hi.delivers.ordered q
  · rcases hreceivers hq with ⟨rfl, rfl⟩ | ⟨-, hq⟩
    · exact hrc.cursor_le
    · exact hi.delivers.cursor_le q rq hq
  · rcases hreceivers hq with ⟨rfl, rfl⟩ | ⟨-, hq⟩
    · exact hrc.closing
    · exact hi.closing q rq hq

theorem Inv.receiver_quiet {s : St T} (hi : Inv c s h)
    (hrc : rc.Fits s.shared h.sent (h.origin r) (h.log r)) : Inv c (s.setReceiver r rc) h := by
  have hset := hi.receiver (r := r) hrc
  rwa [Function.update_eq_self, Function.update_eq_self] at hset

theorem inv_run {s : St T} {rc' : Receiver T} (hc : 0 < c) (hi : Inv c s h)
    (hrc : s.receivers r = some rc) (hrun : rc.run c s.shared = some rc') :
    Inv c (s.setReceiver r rc') (upd c (.run r) s h) := by
  have hfits := hi.fits hrc
  rcases Receiver.run_cases hrun with ⟨hres, hnext, hpc⟩ | ⟨result, hres, hnext, hpc⟩
  · simp only [upd, hrc, hres]
    refine hi.receiver_quiet ⟨hfits.holds, ?_, hfits.ordered, ?_, hpc⟩
    · rw [hnext]
      exact hfits.chain
    · rw [hnext]
      exact hfits.cursor_le
  · obtain ⟨hholds, hle⟩ := hi.ring.result_holds hc hfits.cursor_le hfits.closing hres
    simp only [upd, hrc, hres]
    suffices hrc' : rc'.Fits s.shared h.sent (h.origin r)
        (⟨rc.nextSeq, result, (s.shared.tryRecvOne c rc.nextSeq).2⟩ :: h.log r) by
      have hset := hi.receiver (r := r) hrc'
      rwa [Function.update_eq_self] at hset
    refine ⟨?_, ⟨hnext.symm, hfits.chain⟩, ?_, hnext ▸ hle, ?_⟩
    · rintro e (_ | ⟨_, he⟩)
      · exact hholds
      · exact hfits.holds e he
    · -- All that was delivered before lies below the cursor of this entry.
      rw [List.filterMap_cons]
      split
      · exact hfits.ordered
      · next k hk =>
        refine List.pairwise_cons.mpr ⟨fun j hj => ?_, hfits.ordered⟩
        have hlt := hfits.chain.delivered_lt hfits.holds j hj
        unfold Entry.delivered at hk
        split at hk
        · cases hk
          exact hlt
        · cases hk
    · intro hcl
      rw [hpc] at hcl
      cases hcl

theorem inv_step {a : Act T} {s s' : St T} (hc : 0 < c) (hi : Inv c s h) (hok : BelowSentinels s a)
    (hstep : step c a s = some s') : Inv c s' (upd c a s h) := by
  cases a with
  | send v =>
    simp only [step, Option.ite_none_right_eq_some, Option.some.injEq] at hstep
    obtain ⟨hs, rfl⟩ := hstep
    by_cases hrc : s.shared.receiverCount = 0
    · simp only [Shared.send, upd, if_pos hrc]
      exact hi
    · simp only [upd, if_neg hrc]
      exact hi.sender hs (hi.ring.send hrc hok v)
  | cloneSender | dropSender =>
    simp only [step, Option.ite_none_right_eq_some, Option.some.injEq] at hstep
    obtain ⟨hs, rfl⟩ := hstep
    exact hi.sender_quiet hs _ _
  | cloneReceiver r new =>
    simp only [step] at hstep
    split at hstep
    · next rc hrest hnew =>
      cases hstep
      have hrc : s.receivers r = some rc := (Option.filter_eq_some_iff.mp hrest).1
      have hfits := hi.fits hrc
      simp only [upd, hrc, Option.map_some, Option.getD_some]
      refine Inv.receiver (s := { s with shared := _ }) ?_ ?_
      · obtain ⟨hring, ⟨hholds, hchain, hordered, hle⟩, hclosing⟩ := hi
        exact ⟨hring.counts _ _, ⟨hholds, hchain, hordered, hle⟩, hclosing⟩
      · exact ⟨by simp, rfl, .nil, hfits.cursor_le, by simp [PollPc.closing]⟩
    · cases hstep
  | dropReceiver r =>
    obtain ⟨rc, -, rfl⟩ := Option.map_eq_some_iff.mp hstep
    have hkept {q : Nat} {rq : Receiver T}
        (hq : Function.update s.receivers r none q = some rq) : s.receivers q = some rq := by
      rw [Function.update_apply] at hq
      split at hq
      · cases hq
      · exact hq
    exact ⟨hi.ring.counts _ _,
      ⟨hi.delivers.holds, fun q rq hq => hi.delivers.chain q rq (hkept hq), hi.delivers.ordered,
        fun q rq hq => hi.delivers.cursor_le q rq (hkept hq)⟩,
      fun q rq hq => hi.closing q rq (hkept hq)⟩
  | poll r =>
    obtain ⟨rc, hrest, rfl⟩ := Option.map_eq_some_iff.mp hstep
    have hfits := hi.fits (Option.filter_eq_some_iff.mp hrest).1
    exact hi.receiver_quiet
      ⟨hfits.holds, hfits.chain, hfits.ordered, hfits.cursor_le, by simp [PollPc.closing]⟩
  | run r =>
    obtain ⟨rc, hrc, hrun⟩ := Option.bind_eq_some_iff.mp hstep
    obtain ⟨rc', hrc', rfl⟩ := Option.map_eq_some_iff.mp hrun
    exact inv_run hc hi hrc hrc'

/-! ## Delivery -/

/-- In every run with at most `2 ^ 64 - 2` sends, every receiver is told the truth. -/
theorem broadcast_delivery {capacity : Nat} {tr : List (Act T)} {s : St T} {h : Hist T}
    (hrun : BroadcastRun capacity BelowSentinels tr (s, h)) : Delivers s h := by
  have hc : 0 < effectiveCapacity capacity := Nat.lt_of_lt_of_le Nat.one_pos (le_max_right ..)
  have hinv : Inv (effectiveCapacity capacity) s h := by
    refine hrun.hist_invariant (I := Inv _) ?_
      (fun _ _ _ _ hi hok hst => inv_step hc hi hok hst)
    rintro s rfl
    exact inv_init _
  exact hinv.delivers

/-- Three sends overtake a receiver of a channel with two slots; it then reads the
third value and finds the channel closed. -/
def overtakenReceiver : List (Act Nat) :=
  [.send 10, .send 11, .send 12, .poll 0, .run 0, .cloneReceiver 0 1, .poll 0, .run 0,
    .dropSender, .poll 0, .run 0, .run 0, .run 0, .poll 1, .run 1]

theorem broadcast_delivery_overtaken : ∃ tr s h,
    BroadcastRun 2 BelowSentinels tr (s, h) ∧ h.sent = [10, 11, 12] ∧
    h.log 0 = [⟨3, .closed, 3⟩, ⟨2, .ok (some 12), 3⟩, ⟨0, .lagged 2, 2⟩] ∧
    h.log 1 = [⟨2, .ok (some 12), 3⟩] ∧ Delivers s h := by
  obtain ⟨⟨s, h⟩, hrun, heq⟩ : ∃ p, BroadcastRun 2 BelowSentinels overtakenReceiver.reverse p ∧
      p.2.sent = [10, 11, 12] ∧
      p.2.log 0 = [⟨3, .closed, 3⟩, ⟨2, .ok (some 12), 3⟩, ⟨0, .lagged 2, 2⟩] ∧
      p.2.log 1 = [⟨2, .ok (some 12), 3⟩] :=
    Run.exists_of_guarded overtakenReceiver (.init, .empty) ⟨rfl, rfl⟩ (by decide +kernel)
  exact ⟨_, s, h, hrun, heq.1, heq.2.1, heq.2.2, broadcast_delivery hrun⟩

/-! ## The sentinel numbers -/

/-- A channel with one slot after `k + 1` sends. -/
def sends (k : Nat) : St Unit where
  shared := ⟨Function.update (fun _ => ⟨unwritten, none⟩) 0 ⟨k, some ()⟩, k + 1, 1, 2⟩
  receivers := (St.init : St Unit).receivers

theorem step_sends (hk : k + 2 < 2 ^ 64) : step 1 (.send ()) (sends k) = some (sends (k + 1)) := by
  have hnext : wrappingAdd (k + 1) 1 = k + 2 := wrappingAdd_eq hk
  simp only [step, sends, Shared.send, Shared.receiverCount, Nat.mod_one, hnext,
    Function.update_idem]
  rfl

theorem run_sends (hk : k + 1 < 2 ^ 64) : ∃ tr,
    BroadcastRun 0 Free tr (sends k, { Hist.empty with sent := List.replicate (k + 1) () }) := by
  induction k with
  | zero =>
    exact ⟨[.send ()], .next (.start (s := (.init, .empty)) ⟨rfl, rfl⟩) trivial rfl⟩
  | succ k ih =>
    obtain ⟨tr, hrun⟩ := ih (Nat.lt_of_succ_lt hk)
    refine ⟨.send () :: tr, hrun.next trivial (Option.map_eq_some_iff.mpr
      ⟨_, step_sends hk, ?_⟩)⟩
    have hsent : List.replicate (k + 1) () ++ [()] = List.replicate (k + 2) () :=
      List.replicate_succ'.symm
    simp only [upd, sends, Shared.receiverCount, hsent]
    rfl

def closeAndPoll : List (Act Unit) := [.dropSender, .poll 0, .run 0, .run 0, .run 0]

theorem exec_closeAndPoll (sent : List Unit) :
    (exec (withHist (step 1) (upd 1)) closeAndPoll (sends transient, { Hist.empty with sent })).map
      (fun p => (p.2.sent, p.2.log 0)) = some (sent, [⟨0, .closed, 0⟩]) := by
  rfl

/-- The value with the number `u64::MAX - 1` is never seen: the receiver is told
`Closed` with its cursor still at 0. -/
theorem sentinel_closes_early : ∃ tr s h, BroadcastRun 0 (T := Unit) Free tr (s, h) ∧
    h.sent.length = 2 ^ 64 - 1 ∧ h.log 0 = [⟨0, .closed, 0⟩] ∧ ¬ Delivers s h := by
  obtain ⟨tr, hrun⟩ := run_sends (k := transient) (by decide)
  have hlen : (List.replicate (transient + 1) ()).length = 2 ^ 64 - 1 := List.length_replicate
  generalize List.replicate (transient + 1) () = sent at hrun hlen
  obtain ⟨⟨s, h⟩, hexec, heq⟩ := Option.map_eq_some_iff.mp (exec_closeAndPoll sent)
  simp only [Prod.mk.injEq] at heq
  obtain ⟨rfl, hlog⟩ := heq
  refine ⟨_, s, h, hrun.append_exec (fun _ _ => trivial) hexec, hlen, hlog, fun hd => ?_⟩
  obtain ⟨-, -, hend⟩ := hd.holds 0 ⟨0, .closed, 0⟩ (by rw [hlog]; exact .head _)
  rw [hlen] at hend
  exact absurd hend (by decide)

end Dtact.Broadcast
