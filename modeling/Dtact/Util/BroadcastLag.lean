import Dtact.Util.Broadcast

/-!
# Where an overtaken receiver resumes

`Lagged` promises that the receiver "will resume from the oldest still-buffered message".
`try_recv_one` moves the cursor to the number it finds in the slot of the cursor, the last one sent
which is congruent to the cursor modulo the number of slots.
-/

namespace Dtact.Broadcast

open Transition

variable {T : Type} {c k : Nat} {s : Shared T} {sent : List T}

/-! ## Receiving while nothing else happens -/

/-- `steps` steps of a poll, or fewer if it ends. -/
def Receiver.runs (c : Nat) (s : Shared T) : Nat → Receiver T → Receiver T
  | 0, rc => rc
  | steps + 1, rc => ((rc.run c s).map (Receiver.runs c s steps)).getD rc

/-- One `poll_recv` from the cursor `nextSeq`; it has at most five steps. -/
def recv (c : Nat) (s : Shared T) (nextSeq : Nat) : Receiver T :=
  Receiver.runs c s 5 ⟨nextSeq, .tryRecv⟩

/-- Calls of `recv`, one after the other. -/
def recvs (c : Nat) (s : Shared T) : Nat → Nat → List (PollPc T)
  | 0, _ => []
  | calls + 1, nextSeq => (recv c s nextSeq).pc :: recvs c s calls (recv c s nextSeq).nextSeq

theorem recv_of_some {result : RecvResult T} {k' : Nat}
    (h : s.tryRecvOne c k = (some result, k')) : recv c s k = ⟨k', .ready result⟩ := by
  simp only [recv, Receiver.runs, Receiver.run, h]
  rfl

theorem recv_of_none (h : s.tryRecvOne c k = (none, k)) :
    recv c s k = ⟨k, if s.senderCount = 0 then .ready .closed else .pending⟩ := by
  by_cases hs : s.senderCount = 0 <;>
    simp [recv, Receiver.runs, Receiver.run, h, hs]

/-- A value or a lag comes from the first look at the slot. -/
theorem tryRecvOne_of_recv {result : RecvResult T} {k' : Nat}
    (h : recv c s k = ⟨k', .ready result⟩) (hne : result ≠ .closed) :
    s.tryRecvOne c k = (some result, k') := by
  have hkeep := s.tryRecvOne_none c k
  rcases htry : s.tryRecvOne c k with ⟨_ | found, next⟩
  · rw [htry] at hkeep
    obtain rfl : next = k := hkeep rfl
    rw [recv_of_none htry, Receiver.mk.injEq] at h
    obtain ⟨-, hpc⟩ := h
    split at hpc
    · exact absurd (PollPc.ready.inj hpc).symm hne
    · cases hpc
  · rw [recv_of_some htry, Receiver.mk.injEq] at h
    obtain ⟨rfl, hpc⟩ := h
    rw [PollPc.ready.inj hpc]

/-! ## A ring below the sentinels -/

/-- The number in the slot is the last one of its class. -/
theorem Ring.recv_lagged (hr : Ring c s sent) {m : Nat} (hkm : k < m) (hm : m < sent.length)
    (hlap : sent.length ≤ m + c) (hmod : m % c = k % c) :
    recv c s k = ⟨m, .ready (.lagged (m - k))⟩ := by
  have hbound := hr.bound
  have hslot := hr.recent m _ (List.getElem?_eq_getElem hm) hlap
  rw [hmod] at hslot
  refine recv_of_some ?_
  unfold transient at hbound
  simp only [Shared.tryRecvOne, hslot]
  rw [if_neg, if_neg hkm.ne, if_pos hkm]
  simp only [unwritten, transient]
  omega

/-- The last `calls` messages are received in order. -/
theorem Ring.recvs_buffered (hr : Ring c s sent) {calls : Nat} (hcalls : calls ≤ c)
    (hk : k + calls = sent.length) :
    recvs c s calls k = (sent.drop k).map fun v => .ready (.ok (some v)) := by
  induction calls generalizing k with
  | zero =>
    rw [List.drop_eq_nil_of_le (by omega)]
    rfl
  | succ calls ih =>
    have hlt : k < sent.length := by omega
    have hbound := hr.bound
    unfold transient at hbound
    have hslot := hr.recent k _ (List.getElem?_eq_getElem hlt) (by omega)
    have hone : recv c s k = ⟨k + 1, .ready (.ok (some sent[k]))⟩ := by
      refine recv_of_some ?_
      simp only [Shared.tryRecvOne, hslot, if_true, wrappingAdd_eq (show k + 1 < 2 ^ 64 by omega)]
      rw [if_neg]
      simp only [unwritten, transient]
      omega
    have hrest := ih (k := k + 1) (by omega) (by omega)
    rw [List.drop_eq_getElem_cons hlt, List.map_cons, recvs, hone, hrest]

/-! ## Where the receiver resumes -/

/-- The receiver is told how many messages it has lost and then gets all that are left. -/
structure Resumes (c : Nat) (s : Shared T) (sent : List T) (k : Nat) : Prop where
  lagged : recv c s k =
    ⟨sent.length - c, .ready (.lagged (sent.length - c - k))⟩
  buffered : recvs c s c (sent.length - c) =
    (sent.drop (sent.length - c)).map fun v => .ready (.ok (some v))

theorem Ring.resumes_iff (hc : 0 < c) (hr : Ring c s sent) (hlag : k + c < sent.length) :
    Resumes c s sent k ↔ sent.length % c = k % c := by
  obtain ⟨m, hkm, hm, hlap, hmod⟩ := exists_last_lap hc (show k < sent.length by omega)
  have hsub : (sent.length - c) % c = sent.length % c := (Nat.mod_eq_sub_mod (by omega)).symm
  have hrecv := hr.recv_lagged (by omega) hm hlap hmod
  constructor
  · intro h
    have hnext : m = sent.length - c :=
      congrArg Receiver.nextSeq (hrecv.symm.trans h.lagged)
    rw [← hsub, ← hmod, hnext]
  · intro h
    have heq : sent.length - c = m :=
      SeqRing.eq_of_mod_eq (by rw [hsub, h, hmod]) (by omega) (by omega)
    subst heq
    exact ⟨hrecv, hr.recvs_buffered le_rfl (by omega)⟩

/-! ## Beyond the sentinels -/

/-- Numbers are words. -/
structure Words (s : Shared T) : Prop where
  next : s.nextSeq < 2 ^ 64
  slots : ∀ i, (s.slots i).seq < 2 ^ 64

theorem words_step {a : Act T} {s s' : St T} (hw : Words s.shared) (hstep : step c a s = some s') :
    Words s'.shared := by
  cases a with
  | send v =>
    simp only [step, Option.ite_none_right_eq_some, Option.some.injEq] at hstep
    obtain ⟨-, rfl⟩ := hstep
    unfold Shared.send
    split
    · exact hw
    · refine ⟨Nat.mod_lt _ (by decide), fun i => ?_⟩
      simp only [Function.update_apply]
      split
      · exact hw.next
      · exact hw.slots i
  | cloneSender | dropSender =>
    simp only [step, Option.ite_none_right_eq_some, Option.some.injEq] at hstep
    obtain ⟨-, rfl⟩ := hstep
    exact ⟨hw.next, hw.slots⟩
  | cloneReceiver r new =>
    simp only [step] at hstep
    split at hstep
    · cases hstep
      exact ⟨hw.next, hw.slots⟩
    · cases hstep
  | dropReceiver r | poll r =>
    obtain ⟨rc, -, rfl⟩ := Option.map_eq_some_iff.mp hstep
    exact ⟨hw.next, hw.slots⟩
  | run r =>
    obtain ⟨rc, -, hrun⟩ := Option.bind_eq_some_iff.mp hstep
    obtain ⟨rc', -, rfl⟩ := Option.map_eq_some_iff.mp hrun
    exact ⟨hw.next, hw.slots⟩

theorem words_of_run {capacity : Nat} {tr : List (Act T)} {s : St T} {h : Hist T}
    (hrun : BroadcastRun capacity Free tr (s, h)) : Words s.shared := by
  refine hrun.hist_invariant (I := fun s _ => Words s.shared) ?_
    (fun _ _ _ _ hw _ hst => words_step hw hst)
  rintro s rfl
  exact ⟨(by decide : 0 < 2 ^ 64), fun _ => (by decide : unwritten < 2 ^ 64)⟩

/-- A value is received at a number that is no sentinel, and moves the cursor by one. -/
theorem tryRecvOne_ok {v : Option T} {k' : Nat} (h : s.tryRecvOne c k = (some (.ok v), k')) :
    k ≠ unwritten ∧ k ≠ transient ∧ k' = wrappingAdd k 1 := by
  simp only [Shared.tryRecvOne] at h
  split at h
  · cases h
  · next hreal =>
    split at h
    · next heq =>
      rw [← heq] at hreal
      cases h
      exact ⟨fun hk => hreal (.inl hk), fun hk => hreal (.inr hk), rfl⟩
    · split at h <;> cases h

/-- A lag moves the cursor to the number of the slot. -/
theorem tryRecvOne_lagged {skipped k' : Nat}
    (h : s.tryRecvOne c k = (some (.lagged skipped), k')) :
    k' = (s.slots (k % c)).seq ∧ k' ≠ unwritten ∧ k' ≠ transient := by
  simp only [Shared.tryRecvOne] at h
  split at h
  · cases h
  · next hreal =>
    split at h
    · cases h
    · split at h
      · cases h
        exact ⟨rfl, fun hk => hreal (.inl hk), fun hk => hreal (.inr hk)⟩
      · cases h

/-- The messages received one after the other have numbers below the sentinels. -/
theorem recvs_le_transient {calls : Nat} {vs : List T} (hk : k ≤ transient)
    (hlen : vs.length = calls)
    (h : recvs c s calls k = vs.map fun v => .ready (.ok (some v))) : k + calls ≤ transient := by
  induction vs generalizing calls k with
  | nil =>
    subst hlen
    exact hk
  | cons v vs ih =>
    subst hlen
    simp only [List.length_cons, recvs, List.map_cons, List.cons.injEq] at h
    obtain ⟨hfirst, hrest⟩ := h
    have htry : s.tryRecvOne c k = (some (.ok (some v)), (recv c s k).nextSeq) :=
      tryRecvOne_of_recv (by rw [← hfirst]) (by simp)
    obtain ⟨-, hne, hnext⟩ := tryRecvOne_ok htry
    have hlt : k < transient := Nat.lt_of_le_of_ne hk hne
    rw [hnext, wrappingAdd_eq (by unfold transient at hlt; omega)] at hrest
    have hle := ih hlt rfl hrest
    rw [List.length_cons]
    omega

/-- A receiver that resumes as promised has seen fewer sends than there are numbers. -/
theorem Resumes.length_le (hw : Words s) (hlag : k + c < sent.length)
    (h : Resumes c s sent k) : sent.length ≤ transient := by
  have htry := tryRecvOne_of_recv h.lagged (by simp)
  obtain ⟨hslot, hne, hne'⟩ := tryRecvOne_lagged htry
  have hlt := hw.slots (k % c)
  rw [← hslot] at hlt
  have hle : sent.length - c + c ≤ transient :=
    recvs_le_transient (by unfold unwritten transient at *; omega)
      (by rw [List.length_drop]; omega) h.buffered
  omega

/-- With so few sends the ring is as in `Ring`, whatever the run. -/
theorem inv_of_length_le {capacity : Nat} {tr : List (Act T)} {s : St T} {h : Hist T}
    (hrun : BroadcastRun capacity Free tr (s, h)) (hlen : h.sent.length ≤ transient) :
    Inv (effectiveCapacity capacity) s h := by
  have hc : 0 < effectiveCapacity capacity := Nat.lt_of_lt_of_le Nat.one_pos (le_max_right ..)
  refine Run.invariant
    (I := fun _ p => p.2.sent.length ≤ transient → Inv (effectiveCapacity capacity) p.1 p.2)
    ?_ ?_ hrun hlen
  · rintro ⟨s, h⟩ ⟨rfl, rfl⟩ -
    exact inv_init _
  · intro tr ⟨s, h⟩ a p' ih _ hstep hlen
    obtain ⟨s', hs', rfl⟩ := Option.map_eq_some_iff.mp hstep
    cases a with
    | send v =>
      by_cases hrc : s.shared.receiverCount = 0
      · -- nobody to send to: nothing changes
        simp only [upd, if_pos hrc] at hlen ⊢
        simp only [step, Shared.send, if_pos hrc, Option.ite_none_right_eq_some,
          Option.some.injEq] at hs'
        obtain ⟨-, rfl⟩ := hs'
        exact ih hlen
      · simp only [upd, if_neg hrc, List.length_append, List.length_singleton] at hlen
        have hi := ih (Nat.le_of_succ_le hlen)
        have hok : BelowSentinels s (.send v) := by
          show s.shared.nextSeq < transient
          rw [hi.ring.next]
          exact hlen
        exact inv_step hc hi hok hs'
    | cloneSender | dropSender | cloneReceiver | dropReceiver | poll =>
      refine inv_step hc (ih hlen) ?_ hs'
      trivial
    | run r =>
      refine inv_step hc (ih ?_) (a := .run r) trivial hs'
      simp only [upd] at hlen
      split at hlen
      · split at hlen <;> exact hlen
      · exact hlen

/-- In every state of the channel, a receiver with a cursor more than a lap behind resumes at the
oldest buffered message exactly if the cursor is congruent to the number of sends. -/
theorem resumes_at_oldest_iff {capacity : Nat} {tr : List (Act T)} {s : St T} {h : Hist T}
    (hrun : BroadcastRun capacity Free tr (s, h)) {k : Nat}
    (hlag : k + effectiveCapacity capacity < h.sent.length) :
    Resumes (effectiveCapacity capacity) s.shared h.sent k ↔
      h.sent.length % effectiveCapacity capacity = k % effectiveCapacity capacity ∧
        h.sent.length ≤ transient := by
  have hc : 0 < effectiveCapacity capacity := Nat.lt_of_lt_of_le Nat.one_pos (le_max_right ..)
  constructor
  · intro hres
    have hlen := hres.length_le (words_of_run hrun) hlag
    exact ⟨((inv_of_length_le hrun hlen).ring.resumes_iff hc hlag).mp hres, hlen⟩
  · rintro ⟨hmod, hlen⟩
    exact ((inv_of_length_le hrun hlen).ring.resumes_iff hc hlag).mpr hmod

def fourSends : List (Act Nat) := [.send 10, .send 11, .send 12, .send 13]

theorem resumes_at_oldest_iff_four : ∃ tr s h, BroadcastRun 2 (T := Nat) Free tr (s, h) ∧
    h.sent = [10, 11, 12, 13] ∧ (s.receivers 0).map Receiver.nextSeq = some 0 ∧
    Resumes 2 s.shared h.sent 0 := by
  obtain ⟨⟨s, h⟩, hrun, heq⟩ : ∃ p, BroadcastRun 2 Free fourSends.reverse p ∧
      p.2.sent = [10, 11, 12, 13] ∧ (p.1.receivers 0).map Receiver.nextSeq = some 0 :=
    Run.exists_of_exec fourSends (.init, .empty) ⟨rfl, rfl⟩ (by decide +kernel)
  refine ⟨_, s, h, hrun, heq.1, heq.2, (resumes_at_oldest_iff hrun ?_).mpr ?_⟩
  · rw [heq.1]
    decide
  · rw [heq.1]
    decide

/-- After three sends to a channel with two slots, a receiver that has seen nothing is told that
it lost two messages, and message 1 is skipped although it is still in the buffer. -/
theorem lagged_skips_buffered : ∃ tr s h, BroadcastRun 2 (T := Nat) Free tr (s, h) ∧
    h.sent = [10, 11, 12] ∧ (s.receivers 0).map Receiver.nextSeq = some 0 ∧
    (s.shared.slots 1).value = some 11 ∧ s.shared.tryRecvOne 2 0 = (some (.lagged 2), 2) ∧
    ¬ Resumes 2 s.shared h.sent 0 := by
  obtain ⟨⟨s, h⟩, hrun, hsent, hcursor, hvalue, htry⟩ : ∃ p, BroadcastRun 2 (T := Nat) Free _ p ∧
      p.2.sent = [10, 11, 12] ∧ (p.1.receivers 0).map Receiver.nextSeq = some 0 ∧
      (p.1.shared.slots 1).value = some 11 ∧ p.1.shared.tryRecvOne 2 0 = (some (.lagged 2), 2) :=
    Run.exists_of_exec [.send 10, .send 11, .send 12] (.init, .empty) ⟨rfl, rfl⟩
      (by decide +kernel)
  refine ⟨_, s, h, hrun, hsent, hcursor, hvalue, htry, fun hres => ?_⟩
  have hlagged := hres.lagged
  rw [recv_of_some htry, hsent, Receiver.mk.injEq] at hlagged
  exact absurd hlagged.1 (by decide)

end Dtact.Broadcast
