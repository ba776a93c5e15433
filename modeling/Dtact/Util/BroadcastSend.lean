import Dtact.Lib.Tickets
import Dtact.Util.Broadcast

/-!
# Concurrent sends

A send claims its number with a `fetch_add`, flags the slot of that number, drops the value of the
lap before, writes its own and publishes the number. Nothing stops a send that is a whole lap ahead
from entering the slot in the meantime. Dropping leaves uninitialised memory behind.
-/

namespace Dtact.Broadcast

open Transition

variable {T : Type}

/-- Where a thread is in `send`. -/
inductive SendPc (T : Type)
  | idle
  | loadStrong (value : T)
  | loadSenders (value : T) (strong : Nat)
  | claim (value : T)
  | flag (seq : Nat) (value : T)
  | dropOld (seq : Nat) (value : T)
  | write (seq : Nat) (value : T)
  | publish (seq : Nat) (value : T)

def Shared.setSlot (s : Shared T) (i : Nat) (slot : Slot T) : Shared T :=
  { s with slots := Function.update s.slots i slot }

@[simp]
theorem Shared.slots_setSlot (s : Shared T) (i : Nat) (slot : Slot T) :
    (s.setSlot i slot).slots = Function.update s.slots i slot := rfl

/-- The next access of `send`. -/
def SendPc.run (c : Nat) (s : Shared T) : SendPc T → Option (Shared T × SendPc T)
  | .idle => none
  | .loadStrong value => some (s, .loadSenders value s.strongCount)
  | .loadSenders value strong =>
    some (s, if strong - s.senderCount = 0 then .idle else .claim value)
  | .claim value => some ({ s with nextSeq := wrappingAdd s.nextSeq 1 }, .flag s.nextSeq value)
  | .flag seq value =>
    some (s.setSlot (seq % c) { s.slots (seq % c) with seq := transient },
      if c ≤ seq then .dropOld seq value else .write seq value)
  | .dropOld seq value =>
    some (s.setSlot (seq % c) { s.slots (seq % c) with value := none }, .write seq value)
  | .write seq value =>
    some (s.setSlot (seq % c) { s.slots (seq % c) with value := some value }, .publish seq value)
  | .publish seq _ => some (s.setSlot (seq % c) { s.slots (seq % c) with seq := seq }, .idle)

/-- `Shared::drop`: the values it drops. -/
def Shared.drop (c : Nat) (s : Shared T) : List (Option T) :=
  (List.range (min s.nextSeq c)).map fun i => (s.slots i).value

structure Senders (T : Type) where
  shared : Shared T
  threads : Nat → SendPc T

def Senders.init : Senders T := ⟨(St.init : St T).shared, fun _ => .idle⟩

def Senders.setCounts (s : Senders T) (senderCount strongCount : Nat) : Senders T :=
  { s with shared := { s.shared with senderCount, strongCount } }

/-- `addSender` to `subHandle` are the atomic operations of clones and drops. -/
inductive SendAct (T : Type)
  | send (t : Nat) (value : T)
  | run (t : Nat)
  | addSender
  | subSender
  | addHandle
  | subHandle

def sendStep (c : Nat) : SendAct T → Senders T → Option (Senders T)
  | .send t value, s =>
    match s.threads t with
    | .idle => some { s with threads := Function.update s.threads t (.loadStrong value) }
    | _ => none
  | .run t, s =>
    ((s.threads t).run c s.shared).map fun p =>
      ⟨p.1, Function.update s.threads t p.2⟩
  | .addSender, s => some (s.setCounts (s.shared.senderCount + 1) s.shared.strongCount)
  | .subSender, s => some (s.setCounts (s.shared.senderCount - 1) s.shared.strongCount)
  | .addHandle, s => some (s.setCounts s.shared.senderCount (s.shared.strongCount + 1))
  | .subHandle, s => some (s.setCounts s.shared.senderCount (s.shared.strongCount - 1))

/-! ## The history and the properties -/

structure SendHist (T : Type) where
  /-- The values, in the order of their numbers. -/
  sent : List T
  /-- The numbers published, the latest first. -/
  published : List Nat
  dropped : List (Option T)

def SendHist.empty : SendHist T := ⟨[], [], []⟩

def sendUpd (c : Nat) (a : SendAct T) (s : Senders T) (h : SendHist T) : SendHist T :=
  match a with
  | .run t =>
    match s.threads t with
    | .claim value => { h with sent := h.sent ++ [value] }
    | .dropOld seq _ => { h with dropped := (s.shared.slots (seq % c)).value :: h.dropped }
    | .publish seq _ => { h with published := seq :: h.published }
    | _ => h
  | _ => h

/-- The slot whose value the thread is about to access. -/
def SendPc.accesses (c : Nat) : SendPc T → Option Nat
  | .dropOld seq _ | .write seq _ => some (seq % c)
  | _ => none

structure Consistent (c : Nat) (s : Senders T) (h : SendHist T) : Prop where
  exclusive : ∀ t u i, (s.threads t).accesses c = some i → (s.threads u).accesses c = some i →
    t = u
  /-- The numbers published in a slot never decrease. -/
  increasing : ∀ i, (h.published.filter fun k => k % c = i).Pairwise (· ≥ ·)
  /-- Only values that were written are dropped. -/
  dropped : ∀ v ∈ h.dropped, v.isSome
  settled : (∀ t, s.threads t = .idle) → ∀ k v, h.sent[k]? = some v → h.sent.length ≤ k + c →
    s.shared.slots (k % c) = ⟨k, some v⟩
  dropped_finally : (∀ t, s.threads t = .idle) → ∀ v ∈ s.shared.drop c, v.isSome

/-- A claim finds the number of the lap before in the slot of the next number, which is
not a sentinel. -/
def SendPc.LapDone (c : Nat) (s : Shared T) : SendPc T → Prop
  | .claim _ =>
    s.nextSeq < transient ∧ (s.nextSeq < c ∨ (s.slots (s.nextSeq % c)).seq + c = s.nextSeq)
  | _ => True

instance (c : Nat) (s : Shared T) : (pc : SendPc T) → Decidable (pc.LapDone c s)
  | .claim _ => inferInstanceAs (Decidable (_ ∧ (_ ∨ _)))
  | .idle | .loadStrong _ | .loadSenders .. | .flag .. | .dropOld .. | .write .. | .publish .. =>
    inferInstanceAs (Decidable True)

def LapDone (c : Nat) (s : Senders T) : SendAct T → Prop
  | .run t => (s.threads t).LapDone c s.shared
  | _ => True

instance (c : Nat) (s : Senders T) : (a : SendAct T) → Decidable (LapDone c s a)
  | .run _ => inferInstanceAs (Decidable (SendPc.LapDone ..))
  | .send .. | .addSender | .subSender | .addHandle | .subHandle =>
    inferInstanceAs (Decidable True)

abbrev SendRun (capacity : Nat) (ok : Senders T → SendAct T → Prop) :
    List (SendAct T) → Senders T × SendHist T → Prop :=
  Run (initHist (· = .init) .empty)
    (withHist (sendStep (effectiveCapacity capacity)) (sendUpd (effectiveCapacity capacity)))
    fun p a => ok p.1 a

/-! ## Who has which number -/

/-- The number a send has claimed and not published. -/
def SendPc.number : SendPc T → Option Nat
  | .flag seq _ | .dropOld seq _ | .write seq _ | .publish seq _ => some seq
  | _ => none

/-- The send of this number is among the last `c`. -/
def Recent (c : Nat) (sent : List T) (seq : Nat) (value : T) : Prop :=
  sent[seq]? = some value ∧ sent.length ≤ seq + c

/-- What a send finds in its slot. -/
def prior (c : Nat) (sent : List T) (seq : Nat) : Slot T :=
  if seq < c then ⟨unwritten, none⟩ else ⟨seq - c, sent[seq - c]?⟩

/-- The slot of a send is as the send has left it. -/
def SendPc.Owns (c : Nat) (sent : List T) (slots : Nat → Slot T) : SendPc T → Prop
  | .flag seq value => Recent c sent seq value ∧ slots (seq % c) = prior c sent seq
  | .dropOld seq value =>
    Recent c sent seq value ∧ c ≤ seq ∧ slots (seq % c) = ⟨transient, sent[seq - c]?⟩
  | .write seq value => Recent c sent seq value ∧ slots (seq % c) = ⟨transient, none⟩
  | .publish seq value => Recent c sent seq value ∧ slots (seq % c) = ⟨transient, some value⟩
  | _ => True

structure SendInv (c : Nat) (s : Senders T) (h : SendHist T) : Prop where
  next : s.shared.nextSeq = h.sent.length
  bound : h.sent.length ≤ transient
  tickets : Tickets h.sent.length h.published fun t => (s.threads t).number
  owns : ∀ t, (s.threads t).Owns c h.sent s.shared.slots
  done : ∀ k ∈ h.published, h.sent.length ≤ k + c → s.shared.slots (k % c) = ⟨k, h.sent[k]?⟩
  fresh : ∀ i < c, h.sent.length ≤ i → s.shared.slots i = ⟨unwritten, none⟩
  increasing : ∀ i, (h.published.filter fun k => k % c = i).Pairwise (· > ·)
  dropped : ∀ v ∈ h.dropped, v.isSome

variable {c k : Nat} {sent : List T} {slots : Nat → Slot T} {pc : SendPc T}

theorem SendPc.Owns.recent (h : pc.Owns c sent slots) (hk : pc.number = some k) :
    sent.length ≤ k + c := by
  cases pc with
  | flag seq value | dropOld seq value | write seq value | publish seq value =>
    cases hk
    exact h.1.2
  | _ => cases hk

/-- A send does not notice what happens in other slots. -/
theorem SendPc.Owns.frame {slots' : Nat → Slot T} (h : pc.Owns c sent slots)
    (heq : ∀ k, pc.number = some k → slots' (k % c) = slots (k % c)) : pc.Owns c sent slots' := by
  cases pc with
  | flag seq value | dropOld seq value | write seq value | publish seq value =>
    simp only [SendPc.Owns, heq seq rfl] at h ⊢
    exact h
  | _ => trivial

theorem Recent.grow {value : T} (h : Recent c sent k value) (v : T) (hlap : k + c ≠ sent.length) :
    Recent c (sent ++ [v]) k value := by
  obtain ⟨hk, hle⟩ := h
  have hlt := (List.getElem?_eq_some_iff.mp hk).1
  refine ⟨?_, ?_⟩
  · rw [List.getElem?_append_left hlt]
    exact hk
  · rw [List.length_append, List.length_singleton]
    omega

/-- The next claim does not disturb a send that is not a whole lap behind. -/
theorem SendPc.Owns.grow (h : pc.Owns c sent slots) (v : T)
    (hlap : ∀ k, pc.number = some k → k + c ≠ sent.length) : pc.Owns c (sent ++ [v]) slots := by
  have hbefore {k : Nat} {value : T} (hr : Recent c sent k value) :
      (sent ++ [v])[k - c]? = sent[k - c]? := by
    have hlt := (List.getElem?_eq_some_iff.mp hr.1).1
    exact List.getElem?_append_left (by omega)
  cases pc with
  | flag seq value =>
    refine ⟨h.1.grow v (hlap seq rfl), ?_⟩
    rw [h.2, prior, prior, hbefore h.1]
  | dropOld seq value =>
    refine ⟨h.1.grow v (hlap seq rfl), h.2.1, ?_⟩
    rw [h.2.2, hbefore h.1]
  | write seq value | publish seq value => exact ⟨h.1.grow v (hlap seq rfl), h.2⟩
  | _ => trivial

theorem SendPc.Owns.of_number_none (h : pc.number = none) : pc.Owns c sent slots := by
  cases pc with
  | flag | dropOld | write | publish => cases h
  | _ => trivial

/-- Until it publishes, a send leaves another number than its own in the slot. -/
theorem SendPc.Owns.seq_ne (h : pc.Owns c sent slots) (hk : pc.number = some k) (hc : 0 < c)
    (hlt : k < transient) : (slots (k % c)).seq ≠ k := by
  have hunwritten : unwritten ≠ k := by
    simp only [transient, unwritten] at hlt ⊢
    omega
  cases pc with
  | flag seq value =>
    cases hk
    rw [h.2, prior]
    split
    · exact hunwritten
    · show k - c ≠ k
      omega
  | dropOld seq value =>
    cases hk
    rw [h.2.2]
    exact hlt.ne'
  | write seq value | publish seq value =>
    cases hk
    rw [h.2]
    exact hlt.ne'
  | _ => cases hk

theorem number_update (threads : Nat → SendPc T) (t : Nat) (pc : SendPc T) :
    (fun u => (Function.update threads t pc u).number) =
      Function.update (fun u => (threads u).number) t pc.number := by
  funext u
  rcases eq_or_ne u t with rfl | hne
  · simp
  · simp [hne]

namespace SendInv

variable {c t : Nat} {s : Senders T} {h : SendHist T}

theorem init : SendInv c (.init : Senders T) .empty where
  next := rfl
  bound := Nat.zero_le _
  tickets := .empty
  owns _ := trivial
  done _ hk := by cases hk
  fresh _ _ _ := rfl
  increasing _ := .nil
  dropped _ hv := by cases hv

section

variable (hi : SendInv c s h)

include hi

theorem quiet (ht : (s.threads t).number = none) {pc : SendPc T} (hpc : pc.number = none) :
    SendInv c { s with threads := Function.update s.threads t pc } h where
  next := hi.next
  bound := hi.bound
  tickets := by
    rw [number_update, hpc, ← ht, Function.update_eq_self]
    exact hi.tickets
  owns u := by
    rcases eq_or_ne u t with rfl | hne
    · exact .of_number_none (by simpa using hpc)
    · simpa [hne] using hi.owns u
  done := hi.done
  fresh := hi.fresh
  increasing := hi.increasing
  dropped := hi.dropped

/-- The numbers of the last lap have different slots. -/
theorem slot_ne {j k : Nat} (ht : (s.threads t).number = some k) (hj : j < h.sent.length)
    (hlap : h.sent.length ≤ j + c) (hne : j ≠ k) : j % c ≠ k % c := by
  intro heq
  have hk := (hi.tickets.held t k ht).1
  have hklap := (hi.owns t).recent ht
  rcases Nat.lt_or_ge j k with hlt | hge
  · exact hne (SeqRing.eq_of_mod_eq heq hlt.le (by omega))
  · exact hne (SeqRing.eq_of_mod_eq heq.symm hge (by omega)).symm

theorem owns_of_ne {k u : Nat} (ht : (s.threads t).number = some k) (hne : u ≠ t) (slot : Slot T) :
    (s.threads u).Owns c h.sent (Function.update s.shared.slots (k % c) slot) := by
  refine (hi.owns u).frame fun j hj => ?_
  have hjk : j ≠ k := by
    rintro rfl
    exact hne (hi.tickets.unique u t j hj ht)
  have hslot := hi.slot_ne ht (hi.tickets.held u j hj).1 ((hi.owns u).recent hj) hjk
  rw [Function.update_of_ne hslot]

theorem done_of_ne {j k : Nat} (ht : (s.threads t).number = some k) (hj : j ∈ h.published)
    (hlap : h.sent.length ≤ j + c) (slot : Slot T) :
    Function.update s.shared.slots (k % c) slot (j % c) = ⟨j, h.sent[j]?⟩ := by
  have hjk : j ≠ k := by
    rintro rfl
    exact (hi.tickets.held t j ht).2 hj
  rw [Function.update_of_ne (hi.slot_ne ht (hi.tickets.done_lt j hj) hlap hjk)]
  exact hi.done j hj hlap

theorem fresh_of_lt {i k : Nat} (ht : (s.threads t).number = some k) (hic : i < c)
    (hle : h.sent.length ≤ i) (slot : Slot T) :
    Function.update s.shared.slots (k % c) slot i = ⟨unwritten, none⟩ := by
  have hk := (hi.tickets.held t k ht).1
  have hne : i ≠ k % c := by
    rw [Nat.mod_eq_of_lt (by omega)]
    omega
  rw [Function.update_of_ne hne]
  exact hi.fresh i hic hle

theorem access {k : Nat} (ht : (s.threads t).number = some k) {pc : SendPc T}
    (hpc : pc.number = some k) {slot : Slot T} {dropped : List (Option T)}
    (howns : pc.Owns c h.sent (Function.update s.shared.slots (k % c) slot))
    (hdropped : ∀ v ∈ dropped, v.isSome) :
    SendInv c ⟨s.shared.setSlot (k % c) slot, Function.update s.threads t pc⟩
      { h with dropped } where
  next := hi.next
  bound := hi.bound
  tickets := by
    rw [number_update, hpc, ← ht, Function.update_eq_self]
    exact hi.tickets
  owns u := by
    rcases eq_or_ne u t with rfl | hne
    · simpa using howns
    · simpa [hne] using hi.owns_of_ne ht hne slot
  done _ hj hlap := hi.done_of_ne ht hj hlap slot
  fresh _ hic hle := hi.fresh_of_lt ht hic hle slot
  increasing := hi.increasing
  dropped := hdropped

theorem publish {k : Nat} {v : T} (ht : s.threads t = .publish k v) :
    SendInv c
      ⟨s.shared.setSlot (k % c) { s.shared.slots (k % c) with seq := k },
        Function.update s.threads t .idle⟩
      { h with published := k :: h.published } := by
  have hnum : (s.threads t).number = some k := by rw [ht]; rfl
  obtain ⟨⟨hv, hklap⟩, hslot⟩ : Recent c h.sent k v ∧ _ := by
    have := hi.owns t
    rwa [ht] at this
  refine ⟨hi.next, hi.bound, ?_, fun u => ?_, fun j hj hlap => ?_, fun i hic hle => ?_,
    fun i => ?_, hi.dropped⟩
  · rw [number_update]
    exact hi.tickets.finish hnum
  · rcases eq_or_ne u t with rfl | hne
    · exact .of_number_none (by simp [SendPc.number])
    · simpa [hne] using hi.owns_of_ne hnum hne _
  · rcases List.mem_cons.mp hj with rfl | hj
    · change Function.update _ _ _ _ = _
      rw [Function.update_self, hslot, hv]
    · exact hi.done_of_ne hnum hj hlap _
  · exact hi.fresh_of_lt hnum hic hle _
  · -- What was published in this slot before has a smaller number.
    rw [List.filter_cons]
    split
    · next hmod =>
      refine List.pairwise_cons.mpr ⟨fun j hj => ?_, hi.increasing i⟩
      obtain ⟨hj, hmodj⟩ := List.mem_filter.mp hj
      have hlt := hi.tickets.done_lt j hj
      by_contra hge
      have heq : k = j := SeqRing.eq_of_mod_eq
        ((of_decide_eq_true hmod).trans (of_decide_eq_true hmodj).symm) (Nat.le_of_not_lt hge)
        (by omega)
      exact (hi.tickets.held t k hnum).2 (heq ▸ hj)
    · exact hi.increasing i

/-- When the guard of a claim is met, nobody has the number a lap before, and the slot
holds its value. -/
theorem lap_done (hc : 0 < c) (hbound : h.sent.length < transient)
    (hlap : h.sent.length < c ∨ (s.shared.slots (h.sent.length % c)).seq + c = h.sent.length) :
    s.shared.slots (h.sent.length % c) = prior c h.sent h.sent.length ∧
      ∀ u k, (s.threads u).number = some k → k + c ≠ h.sent.length := by
  rcases Nat.lt_or_ge h.sent.length c with hlt | hge
  · refine ⟨?_, fun u k _ => by omega⟩
    rw [prior, if_pos hlt, Nat.mod_eq_of_lt hlt]
    exact hi.fresh _ hlt (Nat.le_refl _)
  · obtain ⟨k, hk⟩ := Nat.exists_eq_add_of_le' hge
    have hmod : h.sent.length % c = k % c := by rw [hk, Nat.add_mod_right]
    have hseq : (s.shared.slots (k % c)).seq = k := by
      have := hlap.resolve_left (by omega)
      rw [hmod] at this
      omega
    -- A send in progress would have left another number in the slot.
    have hfree (u : Nat) : (s.threads u).number ≠ some k := by
      intro hu
      exact (hi.owns u).seq_ne hu hc (by omega) hseq
    refine ⟨?_, fun u j hu heq => ?_⟩
    · rw [prior, if_neg (by omega), hmod]
      have hpub : k ∈ h.published :=
        (hi.tickets.complete k (by omega)).resolve_right fun ⟨u, hu⟩ => hfree u hu
      rw [hi.done k hpub (by omega)]
      simp [hk]
    · have hjk : j = k := by omega
      exact hfree u (hjk ▸ hu)

theorem claim (hc : 0 < c) {v : T} (ht : s.threads t = .claim v) (hok : LapDone c s (.run t)) :
    SendInv c
      ⟨{ s.shared with nextSeq := wrappingAdd s.shared.nextSeq 1 },
        Function.update s.threads t (.flag s.shared.nextSeq v)⟩
      { h with sent := h.sent ++ [v] } := by
  have hnum : (s.threads t).number = none := by rw [ht]; rfl
  simp only [LapDone, ht, SendPc.LapDone, hi.next] at hok ⊢
  obtain ⟨hbound, hlap⟩ := hok
  obtain ⟨hslot, hfree⟩ := hi.lap_done hc hbound hlap
  have hlen : (h.sent ++ [v]).length = h.sent.length + 1 := by simp
  refine ⟨?_, hlen ▸ hbound, ?_, fun u => ?_, fun j hj hle => ?_, fun i hic hle => ?_,
    hi.increasing, hi.dropped⟩
  · rw [hlen]
    have hmax : transient < 2 ^ 64 - 1 := by decide
    exact wrappingAdd_eq (by omega)
  · rw [number_update, hlen]
    exact hi.tickets.take hnum
  · rcases eq_or_ne u t with rfl | hne
    · simp only [Function.update_self, SendPc.Owns, Recent, hlen, List.getElem?_concat_length]
      refine ⟨⟨trivial, by omega⟩, ?_⟩
      rw [hslot, prior, prior]
      split
      · rfl
      · rw [List.getElem?_append_left (by omega)]
    · simp only [Function.update_of_ne hne]
      exact (hi.owns u).grow v (hfree u)
  · have hlt := hi.tickets.done_lt j hj
    have hle' : h.sent.length + 1 ≤ j + c := hlen ▸ hle
    rw [hi.done j hj (by omega), List.getElem?_append_left hlt]
  · have hle' : h.sent.length + 1 ≤ i := hlen ▸ hle
    exact hi.fresh i hic (by omega)

theorem step (hc : 0 < c) {a : SendAct T} {s' : Senders T} (hok : LapDone c s a)
    (hstep : sendStep c a s = some s') : SendInv c s' (sendUpd c a s h) := by
  cases a with
  | send t v =>
    simp only [sendStep] at hstep
    split at hstep
    · next ht =>
      cases hstep
      exact hi.quiet (by rw [ht]; rfl) rfl
    · cases hstep
  | run t =>
    obtain ⟨⟨shared, pc⟩, hrun, rfl⟩ := Option.map_eq_some_iff.mp hstep
    have howns := hi.owns t
    generalize ht : s.threads t = pc at hrun
    cases pc with
    | idle => simp [SendPc.run] at hrun
    | loadStrong v =>
      cases hrun
      simp only [sendUpd, ht]
      exact hi.quiet (by rw [ht]; rfl) rfl
    | loadSenders v strong =>
      cases hrun
      simp only [sendUpd, ht]
      refine hi.quiet (by rw [ht]; rfl) ?_
      split <;> rfl
    | claim v =>
      cases hrun
      simp only [sendUpd, ht]
      exact hi.claim hc ht hok
    | flag k v =>
      cases hrun
      rw [ht] at howns
      simp only [sendUpd, ht]
      refine hi.access (by rw [ht]; rfl) (by split <;> rfl) ?_ hi.dropped
      rw [howns.2]
      split
      · next hle =>
        refine ⟨howns.1, hle, ?_⟩
        rw [Function.update_self, prior, if_neg (Nat.not_lt.mpr hle)]
      · next hlt =>
        refine ⟨howns.1, ?_⟩
        rw [Function.update_self, prior, if_pos (Nat.lt_of_not_le hlt)]
    | dropOld k v =>
      cases hrun
      rw [ht] at howns
      obtain ⟨hrecent, hle, hslot⟩ := howns
      simp only [sendUpd, ht, hslot]
      refine hi.access (by rw [ht]; rfl) rfl ⟨hrecent, Function.update_self ..⟩ ?_
      rintro v (_ | ⟨_, hv⟩)
      · have hlt := (List.getElem?_eq_some_iff.mp hrecent.1).1
        rw [List.getElem?_eq_getElem (by omega)]
        rfl
      · exact hi.dropped v hv
    | write k v =>
      cases hrun
      rw [ht] at howns
      simp only [sendUpd, ht, howns.2]
      exact hi.access (by rw [ht]; rfl) rfl ⟨howns.1, Function.update_self ..⟩ hi.dropped
    | publish k v =>
      cases hrun
      simp only [sendUpd, ht]
      exact hi.publish ht
  | addSender | subSender | addHandle | subHandle =>
    cases hstep
    exact ⟨hi.next, hi.bound, hi.tickets, hi.owns, hi.done, hi.fresh, hi.increasing, hi.dropped⟩

/-- Between sends the ring is the one of the atomic `send`. -/
theorem ring_of_settled (hidle : ∀ t, s.threads t = .idle) : Ring c s.shared h.sent := by
  refine ⟨hi.next, hi.bound, fun k v hk hlap => ?_, hi.fresh⟩
  have hpub : k ∈ h.published := by
    refine (hi.tickets.complete k (List.getElem?_eq_some_iff.mp hk).1).resolve_right ?_
    rintro ⟨t, ht⟩
    rw [hidle t] at ht
    cases ht
  rw [hi.done k hpub hlap, hk]

/-- Threads that access the same slot have the same number. -/
theorem exclusive {t u i : Nat} (ht : (s.threads t).accesses c = some i)
    (hu : (s.threads u).accesses c = some i) : t = u := by
  have hnumber {pc : SendPc T} (h : pc.accesses c = some i) :
      ∃ k, pc.number = some k ∧ k % c = i := by
    cases pc with
    | dropOld seq value | write seq value => exact ⟨seq, rfl, Option.some.inj h⟩
    | _ => cases h
  obtain ⟨k, hk, rfl⟩ := hnumber ht
  obtain ⟨j, hj, hmod⟩ := hnumber hu
  have hjk : j = k := by
    by_contra hne
    exact hi.slot_ne hk (hi.tickets.held u j hj).1 ((hi.owns u).recent hj) hne hmod
  exact hi.tickets.unique t u k hk (hjk ▸ hj)

end

end SendInv

theorem Ring.drop_isSome {s : Shared T} (hc : 0 < c) (hr : Ring c s sent) :
    ∀ v ∈ s.drop c, v.isSome := by
  intro v hv
  obtain ⟨i, hi, rfl⟩ := List.mem_map.mp hv
  rw [List.mem_range, Nat.lt_min, hr.next] at hi
  obtain ⟨m, -, hm, hlap, hmod⟩ := exists_last_lap hc hi.1
  rw [Nat.mod_eq_of_lt hi.2] at hmod
  rw [← hmod, hr.recent m _ (List.getElem?_eq_getElem hm) hlap]
  rfl

/-! ## Sends less than a lap apart -/

/-- In every run in which a number is claimed only once the send of the lap before has
published, the slots are consistent in every state reached. -/
theorem send_consistent {capacity : Nat} {tr : List (SendAct T)} {s : Senders T}
    {h : SendHist T} (hrun : SendRun capacity (LapDone (effectiveCapacity capacity)) tr (s, h)) :
    Consistent (effectiveCapacity capacity) s h := by
  have hc : 0 < effectiveCapacity capacity := Nat.lt_of_lt_of_le Nat.one_pos (le_max_right ..)
  have hinv : SendInv (effectiveCapacity capacity) s h := by
    refine hrun.hist_invariant (I := SendInv _) ?_
      (fun _ _ _ _ hi hok hst => hi.step hc hok hst)
    rintro s rfl
    exact SendInv.init
  exact {
    exclusive := fun _ _ _ ht hu => hinv.exclusive ht hu
    increasing := fun i => (hinv.increasing i).imp Nat.le_of_lt
    dropped := hinv.dropped
    settled := fun hidle => (hinv.ring_of_settled hidle).recent
    dropped_finally := fun hidle => (hinv.ring_of_settled hidle).drop_isSome hc }

/-- Two sends at once on two slots; then the first thread sends again. -/
def twoSenders : List (SendAct Nat) :=
  [[.send 0 10, .send 1 11], .replicate 3 (.run 0), .replicate 3 (.run 1), [.run 0],
    .replicate 3 (.run 1), .replicate 2 (.run 0), [.send 0 12], .replicate 7 (.run 0)].flatten

theorem send_consistent_two_senders : ∃ tr s h, SendRun 2 (LapDone 2) tr (s, h) ∧
    h.sent = [10, 11, 12] ∧ h.published = [2, 0, 1] ∧ h.dropped = [some 10] ∧
    Consistent 2 s h := by
  obtain ⟨⟨s, h⟩, hrun, heq⟩ : ∃ p, SendRun 2 (LapDone 2) twoSenders.reverse p ∧
      p.2.sent = [10, 11, 12] ∧ p.2.published = [2, 0, 1] ∧ p.2.dropped = [some 10] :=
    Run.exists_of_guarded twoSenders (.init, .empty) ⟨rfl, rfl⟩ (by decide +kernel)
  exact ⟨_, s, h, hrun, heq.1, heq.2.1, heq.2.2, send_consistent hrun⟩

/-! ## A send that is overtaken -/

/-- Two threads claim the numbers 0 and 1 of a channel with one slot and enter it. -/
def enterSlot : List (SendAct Nat) :=
  [[.send 0 10, .send 1 11], .replicate 3 (.run 0), .replicate 4 (.run 1), [.run 0]].flatten

/-- The second send drops uninitialised memory, writes and publishes; the first one
then overwrites its value and its number. -/
def overtake : List (SendAct Nat) :=
  [enterSlot, .replicate 3 (.run 1), .replicate 2 (.run 0)].flatten

/-- Two sends on a channel with one slot drop a value that was never written. -/
theorem stalled_send_is_overtaken :
    (∃ tr s h, SendRun 1 Free tr (s, h) ∧ (s.threads 0 : SendPc Nat).accesses 1 = some 0 ∧
      (s.threads 1).accesses 1 = some 0 ∧ ¬ Consistent 1 s h) ∧
    ∃ tr s h, SendRun 1 Free tr (s, h) ∧ h.sent = [10, 11] ∧ h.published = [0, 1] ∧
      h.dropped = [none] ∧ (s.shared.slots 0).seq = 0 ∧ (s.shared.slots 0).value = some 10 ∧
      ¬ Consistent 1 s h := by
  constructor
  · obtain ⟨⟨s, h⟩, hrun, heq⟩ : ∃ p, SendRun 1 Free enterSlot.reverse p ∧
        (p.1.threads 0).accesses 1 = some 0 ∧ (p.1.threads 1).accesses 1 = some 0 :=
      Run.exists_of_exec enterSlot (.init, .empty) ⟨rfl, rfl⟩ (by decide +kernel)
    refine ⟨_, s, h, hrun, heq.1, heq.2, fun hc => ?_⟩
    exact absurd (hc.exclusive 0 1 0 heq.1 heq.2) (by decide)
  · obtain ⟨⟨s, h⟩, hrun, hsent, hpub, hdrop, hseq, hvalue⟩ : ∃ p, SendRun 1 Free overtake.reverse p
        ∧ p.2.sent = [10, 11] ∧ p.2.published = [0, 1] ∧ p.2.dropped = [none] ∧
        (p.1.shared.slots 0).seq = 0 ∧ (p.1.shared.slots 0).value = some 10 :=
      Run.exists_of_exec overtake (.init, .empty) ⟨rfl, rfl⟩ (by decide +kernel)
    refine ⟨_, s, h, hrun, hsent, hpub, hdrop, hseq, hvalue,
      fun hc => ?_⟩
    have hsome := hc.dropped none (by rw [hdrop]; exact .head _)
    cases hsome

end Dtact.Broadcast
