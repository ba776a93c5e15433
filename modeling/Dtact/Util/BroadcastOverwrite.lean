import Dtact.Util.BroadcastAtomic

/-!
# Lag accounting while slots are overwritten

A slot may be overwritten while the receiver is between its two loads of the sequence number. It is
then told `Lagged(1)`, but the cursor is not moved, and the message is counted again later.
-/

namespace Dtact.Broadcast.Atomic

open Transition WaitQueue

variable {T ω : Type}

/-! ## The accounts -/

/-- How many messages a result accounts for. -/
def weight : RecvResult T → Nat
  | .ok _ => 1
  | .lagged skipped => skipped
  | .closed => 0

/-- What `poll_recv` returns, when `try_recv_one` has returned `result`. -/
def Site.answer (site : Site ω) (result : Option (RecvResult T)) : Option (RecvResult T) :=
  match site with
  | .first _ | .again _ => result
  | .closing | .closingAgain _ => some (result.getD .closed)

structure Ledger (T : Type) where
  /-- The sends that have published, with their numbers, the latest first. -/
  sends : List (Nat × T)
  /-- The results, the latest first, each with the value of the send that has the number of the
  cursor. -/
  told : List (RecvResult T × Option T)

def Ledger.empty : Ledger T := ⟨[], []⟩

def note (c : Nat) (a : Act Unit Unit T ω) (s : St Unit Unit T ω) (h : Ledger T) : Ledger T :=
  match a with
  | .task j =>
    match s.task j with
    | .send (.publish seq value) => { h with sends := (seq, value) :: h.sends }
    | _ => h
  | .receiver k =>
    let r := s.receiver k
    match r.pc with
    | .look site at' =>
      match at'.run c s.shared.ring.slots r.nextSeq with
      | .done result _ =>
        match site.answer result with
        | some result => { h with told := (result, h.sends.lookup r.nextSeq) :: h.told }
        | none => h
      | .goOn _ => h
    | _ => h
  | _ => h

/-- The results account for the messages up to the cursor, and every value is that of the send with
the number of the cursor. -/
structure Accounted (s : St Unit Unit T ω) (h : Ledger T) : Prop where
  cursor : (h.told.map fun p => weight p.1).sum = (s.receiver ()).nextSeq
  value : ∀ v w, (.ok v, w) ∈ h.told → v = w ∧ w.isSome

/-- The slot of which the receiver has loaded the sequence number once, and not yet twice. -/
def Receiver.reads (c : Nat) (r : Receiver T ω) : Option Nat :=
  match r.pc with
  | .look _ (.clone _) | .look _ (.reload _ _) => some (r.nextSeq % c)
  | _ => none

/-- No send enters the slot that the receiver is reading. -/
def undisturbed (c : Nat) (s : St Unit Unit T ω) (a : Act Unit Unit T ω) : Bool :=
  match a with
  | .task j =>
    match s.task j with
    | .send (.flag seq _) => (s.receiver ()).reads c ≠ some (seq % c)
    | _ => true
  | _ => true

abbrev LedgerRun [DecidableEq ω] (capacity : Nat)
    (ok : St Unit Unit T ω → Act Unit Unit T ω → Prop) :
    List (Act Unit Unit T ω) → St Unit Unit T ω × Ledger T → Prop :=
  Run (initHist Initial .empty)
    (withHist (step (effectiveCapacity capacity)) (note (effectiveCapacity capacity)))
    fun p a => ok p.1 a

/-! ## Slots -/

/-- A published number is in its slot, with the value of its send. -/
structure Labelled (c : Nat) (slots : Nat → Slot T) (sends : List (Nat × T)) : Prop where
  word : ∀ i, (slots i).seq < 2 ^ 64
  value : ∀ i, (slots i).seq ≠ unwritten → (slots i).seq ≠ transient →
    (slots i).seq % c = i ∧
      ∃ v, (slots i).value = some v ∧ sends.lookup (slots i).seq = some v

/-- The number of a send is a word, and the slot is flagged while its value is accessed. -/
def Writes (c : Nat) (slots : Nat → Slot T) : TaskPc T → Prop
  | .send (.flag seq _) => seq < 2 ^ 64
  | .send (.dropOld seq _) | .send (.write seq _) =>
    seq < 2 ^ 64 ∧ (slots (seq % c)).seq = transient
  | .send (.publish seq value) => seq < 2 ^ 64 ∧ slots (seq % c) = ⟨transient, some value⟩
  | _ => True

/-- The receiver has found its own number in the slot, and it is still there. -/
structure Found (slot : Slot T) (nextSeq slotSeq : Nat) : Prop where
  eq : slotSeq = nextSeq
  written : nextSeq ≠ unwritten
  published : nextSeq ≠ transient
  still : slot.seq = nextSeq

def Reads (c : Nat) (slots : Nat → Slot T) (r : Receiver T ω) : Prop :=
  match r.pc with
  | .look _ (.clone slotSeq) => Found (slots (r.nextSeq % c)) r.nextSeq slotSeq
  | .look _ (.reload slotSeq value) =>
    Found (slots (r.nextSeq % c)) r.nextSeq slotSeq ∧ value = (slots (r.nextSeq % c)).value
  | _ => True

section

variable {c i : Nat} {slots : Nat → Slot T} {sends : List (Nat × T)} {slot : Slot T}
  {r : Receiver T ω}

theorem Labelled.update (h : Labelled c slots sends) (hseq : slot.seq = transient) :
    Labelled c (Function.update slots i slot) sends := by
  constructor
  · intro k
    rcases eq_or_ne k i with rfl | hne
    · rw [Function.update_self, hseq]
      decide
    · rw [Function.update_of_ne hne]
      exact h.word k
  · intro k
    rcases eq_or_ne k i with rfl | hne
    · rw [Function.update_self]
      exact fun _ hpub => absurd hseq hpub
    · rw [Function.update_of_ne hne]
      exact h.value k

theorem Labelled.publish {seq : Nat} {v : T} (h : Labelled c slots sends) (hword : seq < 2 ^ 64) :
    Labelled c (Function.update slots (seq % c) ⟨seq, some v⟩) ((seq, v) :: sends) := by
  constructor
  · intro k
    rcases eq_or_ne k (seq % c) with rfl | hne
    · rw [Function.update_self]
      exact hword
    · rw [Function.update_of_ne hne]
      exact h.word k
  · intro k
    rcases eq_or_ne k (seq % c) with rfl | hne
    · rw [Function.update_self]
      intro _ _
      exact ⟨rfl, v, rfl, List.lookup_cons_self⟩
    · rw [Function.update_of_ne hne]
      intro hwritten hpub
      obtain ⟨hmod, w, hvalue, hlookup⟩ := h.value k hwritten hpub
      -- the number of another slot is another number
      have hother : (slots k).seq ≠ seq := by
        intro heq
        rw [heq] at hmod
        exact hne hmod.symm
      refine ⟨hmod, w, hvalue, ?_⟩
      rw [List.lookup_cons, beq_eq_false_iff_ne.mpr hother]
      exact hlookup

theorem Reads.update (h : Reads c slots r) (hreads : r.reads c ≠ some i) :
    Reads c (Function.update slots i slot) r := by
  unfold Reads Receiver.reads at *
  cases hpc : r.pc with
  | look site at' =>
    cases at' with
    | load => trivial
    | clone slotSeq | reload slotSeq value =>
      simp only [hpc] at h hreads ⊢
      rw [Function.update_of_ne fun heq => hreads (congrArg some heq)]
      exact h
  | _ => trivial

/-- A slot that is being written is not read. -/
theorem Reads.not_flagged (h : Reads c slots r) (hseq : (slots i).seq = transient) :
    r.reads c ≠ some i := by
  intro hreads
  unfold Reads Receiver.reads at *
  split at hreads
  · next hpc =>
    simp only [hpc] at h
    cases hreads
    exact h.published (h.still.symm.trans hseq)
  · next hpc =>
    simp only [hpc] at h
    cases hreads
    exact h.1.published (h.1.still.symm.trans hseq)
  · cases hreads

theorem Reads.of_not_reading (h : r.reads c = none) : Reads c slots r := by
  unfold Reads Receiver.reads at *
  split at h <;> simp_all

end

/-! ## Steps -/

/-- What holds in every run in which the receiver is not disturbed. -/
structure Inv (c : Nat) (s : St Unit Unit T ω) (h : Ledger T) : Prop where
  word : s.shared.ring.nextSeq < 2 ^ 64
  labelled : Labelled c s.shared.ring.slots h.sends
  writes : Writes c s.shared.ring.slots (s.task ())
  reads : Reads c s.shared.ring.slots (s.receiver ())
  accounted : Accounted s h

section

variable {c : Nat} {s s' : St Unit Unit T ω} {h : Ledger T}

theorem Inv.quiet (hi : Inv c s h) (hword : s'.shared.ring.nextSeq < 2 ^ 64)
    (hslots : s'.shared.ring.slots = s.shared.ring.slots)
    (hwrites : Writes c s.shared.ring.slots (s'.task ()))
    (hreads : Reads c s.shared.ring.slots (s'.receiver ()))
    (hcursor : (s'.receiver ()).nextSeq = (s.receiver ()).nextSeq) : Inv c s' h where
  word := hword
  labelled := hslots ▸ hi.labelled
  writes := hslots ▸ hwrites
  reads := hslots ▸ hreads
  accounted := ⟨hi.accounted.cursor.trans hcursor.symm, hi.accounted.value⟩

theorem Inv.slot (hi : Inv c s h) {i : Nat} {slot : Slot T} {pc : TaskPc T}
    {sends : List (Nat × T)} (hunread : (s.receiver ()).reads c ≠ some i)
    (hlabelled : Labelled c (Function.update s.shared.ring.slots i slot) sends)
    (hwrites : Writes c (Function.update s.shared.ring.slots i slot) pc) :
    Inv c ((s.setRing (s.shared.ring.setSlot i slot)).setTask () pc) { h with sends } where
  word := hi.word
  labelled := hlabelled
  writes := hwrites
  reads := hi.reads.update hunread
  accounted := ⟨hi.accounted.cursor, hi.accounted.value⟩

theorem Inv.access (hi : Inv c s h) {pc pc' : SendPc T} {ring : Broadcast.Shared T}
    (ht : s.task () = .send pc) (hrun : pc.run c s.shared.ring = some (ring, pc'))
    (hok : undisturbed c s (.task ())) :
    Inv c ((s.setRing ring).setTask () (.ofSend pc pc')) (note c (.task ()) s h) := by
  have hwrites := hi.writes
  rw [ht] at hwrites
  simp only [note, ht]
  cases pc with
  | idle => cases hrun
  | loadStrong v =>
    cases hrun
    exact hi.quiet hi.word rfl trivial hi.reads rfl
  | loadSenders v strong =>
    cases hrun
    refine hi.quiet hi.word rfl ?_ hi.reads rfl
    show Writes c _ (TaskPc.ofSend _ (if _ then _ else _))
    split <;> trivial
  | claim v =>
    cases hrun
    exact hi.quiet (Nat.mod_lt _ (by decide)) rfl hi.word hi.reads rfl
  | flag seq v =>
    cases hrun
    have hunread : (s.receiver ()).reads c ≠ some (seq % c) := by
      simpa [undisturbed, ht] using hok
    refine hi.slot hunread (hi.labelled.update rfl) ?_
    split
    · exact ⟨hwrites, by rw [Function.update_self]⟩
    · exact ⟨hwrites, by rw [Function.update_self]⟩
  | dropOld seq v =>
    cases hrun
    obtain ⟨hword, hseq⟩ := hwrites
    refine hi.slot (hi.reads.not_flagged hseq) (hi.labelled.update hseq) ⟨hword, ?_⟩
    rw [Function.update_self]
    exact hseq
  | write seq v =>
    cases hrun
    obtain ⟨hword, hseq⟩ := hwrites
    refine hi.slot (hi.reads.not_flagged hseq) (hi.labelled.update hseq) ⟨hword, ?_⟩
    rw [Function.update_self]
    show Slot.mk (s.shared.ring.slots (seq % c)).seq (some v) = _
    rw [hseq]
  | publish seq v =>
    cases hrun
    obtain ⟨hword, hslot⟩ := hwrites
    rw [hslot]
    refine hi.slot (hi.reads.not_flagged ?_) (hi.labelled.publish hword) trivial
    rw [hslot]

theorem Inv.done (hi : Inv c s h) {site : Site ω} {at' : Look T} {result : Option (RecvResult T)}
    {nextSeq : Nat} (hpc : (s.receiver ()).pc = .look site at')
    (hrun : at'.run c s.shared.ring.slots (s.receiver ()).nextSeq = .done result nextSeq) :
    nextSeq = (s.receiver ()).nextSeq + (result.map weight).getD 0 ∧
      ∀ v, result = some (.ok v) → v = h.sends.lookup (s.receiver ()).nextSeq ∧ v.isSome := by
  cases at' with
  | load =>
    have hfinds := Look.load_finds c s.shared.ring.slots (s.receiver ()).nextSeq
    rw [hrun] at hfinds
    cases hfinds with
    | nothing => exact ⟨rfl, nofun⟩
    | overtaken _ _ _ hlt =>
      refine ⟨?_, nofun⟩
      simp only [Option.map_some, weight, Option.getD_some]
      omega
  | clone slotSeq => cases hrun
  | reload slotSeq value =>
    have hreads := hi.reads
    simp only [Reads, hpc] at hreads
    obtain ⟨hfound, rfl⟩ := hreads
    have hseq := hfound.still
    rw [Look.run, if_neg (by rw [hfound.still, hfound.eq]; exact fun hne => hne rfl)] at hrun
    cases hrun
    obtain ⟨-, v, hvalue, hlookup⟩ := hi.labelled.value ((s.receiver ()).nextSeq % c)
      (by rw [hseq]; exact hfound.written) (by rw [hseq]; exact hfound.published)
    constructor
    · have hword := hi.labelled.word ((s.receiver ()).nextSeq % c)
      have hwritten := hfound.written
      rw [hseq] at hword
      unfold unwritten at hwritten
      exact wrappingAdd_eq (by omega)
    · rintro _ ⟨⟩
      rw [hseq] at hlookup
      rw [hvalue, hlookup]
      exact ⟨rfl, rfl⟩

theorem Receiver.tried_nextSeq (r : Receiver T ω) (site : Site ω)
    (result : Option (RecvResult T)) : (r.tried site result).nextSeq = r.nextSeq := by
  cases site <;> cases result <;> rfl

theorem Receiver.tried_reads (r : Receiver T ω) (site : Site ω)
    (result : Option (RecvResult T)) : (r.tried site result).reads c = none := by
  cases site <;> cases result <;> rfl

theorem Accounted.enter (ha : Accounted s h) {result : RecvResult T}
    (hcursor : (s'.receiver ()).nextSeq = (s.receiver ()).nextSeq + weight result)
    (hvalue : ∀ v, result = .ok v → v = h.sends.lookup (s.receiver ()).nextSeq ∧ v.isSome) :
    Accounted s'
      { h with told := (result, h.sends.lookup (s.receiver ()).nextSeq) :: h.told } := by
  constructor
  · rw [List.map_cons, List.sum_cons, ha.cursor, hcursor, Nat.add_comm]
  · intro v w hmem
    rcases List.mem_cons.mp hmem with heq | hmem
    · obtain ⟨hresult, rfl⟩ := Prod.mk.inj heq
      obtain ⟨hv, hsome⟩ := hvalue v hresult.symm
      exact ⟨hv, hv ▸ hsome⟩
    · exact ha.value v w hmem

/-- The answer of a poll weighs as much as the result of `try_recv_one`. -/
theorem Site.answer_cases (site : Site ω) (result : Option (RecvResult T)) :
    site.answer result = none ∧ result = none ∨
      ∃ answer, site.answer result = some answer ∧ weight answer = (result.map weight).getD 0 ∧
        ∀ v, answer = .ok v → result = some (.ok v) := by
  cases result with
  | none =>
    cases site with
    | first waker | again token => exact .inl ⟨rfl, rfl⟩
    | closing | closingAgain token => exact .inr ⟨.closed, rfl, rfl, nofun⟩
  | some result =>
    refine .inr ⟨result, ?_, rfl, fun v hv => congrArg some hv⟩
    cases site <;> rfl

variable [DecidableEq ω]

theorem Inv.receives (hi : Inv c s h) {r : Receiver T ω} {wait : Waiters ω}
    (hr : (s.receiver ()).Receives c s.shared r wait) :
    Inv c ((s.setWait wait).setReceiver () r) (note c (.receiver ()) s h) := by
  have hself : ((s.setWait wait).setReceiver () r).receiver () = r := St.setReceiver_self _ _ _
  have hquiet (hreads : Reads c s.shared.ring.slots r)
      (hcursor : r.nextSeq = (s.receiver ()).nextSeq) :
      Inv c ((s.setWait wait).setReceiver () r) h :=
    hi.quiet hi.word rfl hi.writes (hself ▸ hreads) (hself ▸ hcursor)
  cases hr with
  | @goOn site at' at'' hpc hrun =>
    simp only [note, hpc, hrun]
    refine hquiet ?_ rfl
    cases at' with
    | load =>
      have hfinds := Look.load_finds c s.shared.ring.slots (s.receiver ()).nextSeq
      rw [hrun] at hfinds
      cases hfinds with
      | value hwritten hpub hseq => exact ⟨rfl, hwritten, hpub, hseq⟩
    | clone slotSeq =>
      have hreads := hi.reads
      simp only [Reads, hpc] at hreads
      cases hrun
      exact ⟨hreads, rfl⟩
    | reload slotSeq value =>
      simp only [Look.run] at hrun
      split at hrun <;> cases hrun
  | @done site at' result nextSeq hpc hrun =>
    obtain ⟨hcursor, hvalue⟩ := hi.done hpc hrun
    have hreads : Reads c s.shared.ring.slots ({ s.receiver () with nextSeq }.tried site result) :=
      .of_not_reading (Receiver.tried_reads _ _ _)
    have hnext := Receiver.tried_nextSeq { s.receiver () with nextSeq } site result
    rcases site.answer_cases result with ⟨hanswer, rfl⟩ | ⟨answer, hanswer, hweight, hok⟩
    · have hnote : note c (.receiver ()) s h = h := by simp only [note, hpc, hrun, hanswer]
      rw [hnote]
      exact hquiet hreads (hnext.trans hcursor)
    · have hnote : note c (.receiver ()) s h =
          { h with told := (answer, h.sends.lookup (s.receiver ()).nextSeq) :: h.told } := by
        simp only [note, hpc, hrun, hanswer]
      rw [hnote]
      refine ⟨hi.word, hi.labelled, hi.writes, hself ▸ hreads, ?_⟩
      refine hi.accounted.enter ?_ fun v hv => hvalue v (hok v hv)
      rw [hself, hnext, hweight]
      exact hcursor
  | closed waker hpc _ | waits waker hpc | register waker hpc | closedAgain token hpc _
  | pend token hpc _ | cancel token result hpc =>
    simp only [note, hpc]
    exact hquiet (.of_not_reading rfl) rfl

theorem Inv.step (hi : Inv c s h) {a : Act Unit Unit T ω} (hok : undisturbed c s a)
    (hst : Atomic.step c a s = some s') : Inv c s' (note c a s h) := by
  -- a step outside the slots, of the task or of the receiver between two polls
  have houter (hring : s'.shared.ring.nextSeq = s.shared.ring.nextSeq ∧
      s'.shared.ring.slots = s.shared.ring.slots)
      (hwrites : Writes c s.shared.ring.slots (s'.task ()))
      (hreads : Reads c s.shared.ring.slots (s'.receiver ()))
      (hcursor : (s'.receiver ()).nextSeq = (s.receiver ()).nextSeq) : Inv c s' h :=
    hi.quiet (hring.1 ▸ hi.word) hring.2 hwrites hreads hcursor
  cases step_takes hst with
  | send value _ | cloneSender _ _ => exact houter ⟨rfl, rfl⟩ trivial hi.reads rfl
  | dropSender _ _ =>
    refine houter ⟨rfl, rfl⟩ ?_ hi.reads rfl
    rw [St.setTask_self]
    split <;> trivial
  | access ht hrun => exact hi.access ht hrun hok
  | readyGet ht | loadDequeue ht | overflowHead ht =>
    simp only [note, ht]
    refine houter ⟨rfl, rfl⟩ ?_ hi.reads rfl
    rw [St.setTask_self]
    split <;> trivial
  | loadEnqueue ht =>
    simp only [note, ht]
    exact houter ⟨rfl, rfl⟩ trivial hi.reads rfl
  | wakeAll ht =>
    rcases ht with ⟨ht, rfl⟩ | ⟨ht, rfl⟩ <;>
      (simp only [note, ht]; exact houter ⟨rfl, rfl⟩ trivial hi.reads rfl)
  | arc ht =>
    rcases ht with ht | ht <;>
      (simp only [note, ht]; exact houter ⟨rfl, rfl⟩ trivial hi.reads rfl)
  | cloneReceiver halive hdead => cases halive.symm.trans hdead
  | dropReceiver hpc =>
    refine houter ⟨rfl, rfl⟩ hi.writes ?_ rfl
    rw [St.setReceiver_self]
    exact .of_not_reading (by simp only [Receiver.reads, hpc])
  | pollRecv waker _ => exact houter ⟨rfl, rfl⟩ hi.writes trivial rfl
  | receiver hr => exact hi.receives hr

/-- **Lag accounting.** For every capacity, in every run of one sender and one receiver in which no
send enters a slot between the two loads of its sequence number by the receiver, the results account
for the messages up to the cursor, and every value is that of the send with the number of the
cursor. -/
theorem lag_accounted {capacity : Nat} {tr : List (Act Unit Unit T ω)}
    (hrun : LedgerRun capacity (fun s a => undisturbed (effectiveCapacity capacity) s a) tr
      (s, h)) : Accounted s h := by
  have hinv : Inv (effectiveCapacity capacity) s h := by
    refine hrun.hist_invariant (I := Inv (effectiveCapacity capacity)) ?_
      (fun _ _ _ _ hi hok hst => hi.step hok hst)
    rintro s ⟨k, rfl⟩
    refine ⟨(by decide : 0 < 2 ^ 64), ⟨fun _ => (by decide : unwritten < 2 ^ 64), ?_⟩, trivial,
      ?_, ?_⟩
    · exact fun _ hwritten => absurd rfl hwritten
    · exact .of_not_reading rfl
    · exact ⟨rfl, nofun⟩
  exact hinv.accounted

end

/-! ## Two runs -/

/-- The next `n` accesses of the sender. -/
def sender (n : Nat) : List (Act Unit Unit Nat Nat) := List.replicate n (.task ())

/-- The next `n` accesses of the receiver. -/
def reader (n : Nat) : List (Act Unit Unit Nat Nat) := List.replicate n (.receiver ())

/-- On a channel with one slot, the first message is received, the second one is overwritten, and
the third one is received. -/
def lagBehind : List (Act Unit Unit Nat Nat) :=
  [[.send () 10], sender 8, [.pollRecv () 0], reader 3, [.send () 11], sender 9, [.send () 12],
    sender 9, [.pollRecv () 0], reader 1, [.pollRecv () 0], reader 3].flatten

theorem lag_accounted_one_slot : ∃ (tr : List (Act Unit Unit Nat Nat)) (s : St Unit Unit Nat Nat)
    (h : Ledger Nat), LedgerRun 1 (fun s a => undisturbed 1 s a) tr (s, h) ∧
    h.told = [(.ok (some 12), some 12), (.lagged 1, some 11), (.ok (some 10), some 10)] ∧
    (s.receiver ()).nextSeq = 3 ∧ Accounted s h := by
  obtain ⟨⟨s, h⟩, hrun, htold, hcursor⟩ : ∃ p, LedgerRun 1 (fun s a => undisturbed 1 s a)
      lagBehind.reverse p ∧
      p.2.told = [(.ok (some 12), some 12), (.lagged 1, some 11), (.ok (some 10), some 10)] ∧
      (p.1.receiver ()).nextSeq = 3 :=
    Run.exists_of_guarded lagBehind (St.new (), .empty) ⟨⟨(), rfl⟩, rfl⟩ (by decide +kernel)
  exact ⟨_, s, h, hrun, htold, hcursor, lag_accounted hrun⟩

/-- The second send enters the slot after the receiver has cloned the first message. -/
def overwrite : List (Act Unit Unit Nat Nat) :=
  [[.send () 10], sender 8, [.pollRecv () 0], reader 2, [.send () 11], sender 4, reader 1, sender 5,
    [.pollRecv () 0], reader 1].flatten

/-- One message is lost, and the receiver is told twice that it has lost one. -/
theorem overwritten_counts_twice : ∃ (tr : List (Act Unit Unit Nat Nat))
    (s : St Unit Unit Nat Nat) (h : Ledger Nat), LedgerRun 1 Free tr (s, h) ∧
    h.told = [(.lagged 1, some 10), (.lagged 1, some 10)] ∧ (s.receiver ()).nextSeq = 1 ∧
    ¬ Accounted s h := by
  obtain ⟨⟨s, h⟩, hrun, htold, hcursor⟩ : ∃ p, LedgerRun 1 Free overwrite.reverse p ∧
      p.2.told = [(.lagged 1, some 10), (.lagged 1, some 10)] ∧ (p.1.receiver ()).nextSeq = 1 :=
    Run.exists_of_exec overwrite (St.new (), .empty) ⟨⟨(), rfl⟩, rfl⟩ (by decide +kernel)
  refine ⟨_, s, h, hrun, htold, hcursor, fun hacc => ?_⟩
  have hsum := hacc.cursor
  rw [htold, hcursor] at hsum
  exact absurd hsum (by decide)

end Dtact.Broadcast.Atomic
