import Dtact.Lib.Alarm
import Dtact.Lib.Transition
import Dtact.Util.WaitQueue

/-!
# `sync::oneshot`

`send` writes the value, sets `sent` and wakes; then the sender is dropped, which sets
`sender_dropped` and wakes again. The receiver takes the value after it has seen `sent`, and when it
sees `sender_dropped` it looks at `sent` once more. Each atomic operation, each access to the value
and each operation of the `WaitQueue` is one step.
-/

namespace Dtact.Oneshot

open Transition WaitQueue

/-! ## The channel -/

structure Inner (T ω : Type) where
  value : Option T
  sent : Bool
  senderDropped : Bool
  receiverDropped : Bool
  wait : WaitQueue ω

inductive RecvError
  | mk
deriving DecidableEq

/-- How the life of a sender ends: with what `send` returns, if it is called. -/
inductive Outcome (T : Type)
  | unused
  | ok (value : T)
  | err (value : T)
deriving DecidableEq

/-- Where the sender is in `send` and in `drop`. -/
inductive SenderPc (T : Type)
  | held
  | check (value : T)
  | write (value : T)
  | publish (value : T)
  | wake (value : T)
  | dropStore (outcome : Outcome T)
  | dropWake (outcome : Outcome T)
  | gone (outcome : Outcome T)
deriving DecidableEq

/-- The two calls of `try_take` in `poll`, before and after the registration. -/
inductive Site (ω : Type)
  | first (waker : ω)
  | second (token : RegistrationToken ω)
deriving DecidableEq

/-- Where the receiver is in `poll`. -/
inductive ReceiverPc (T ω : Type)
  | idle
  | loadSent (site : Site ω)
  | take (site : Site ω)
  | loadDropped (site : Site ω)
  | reloadSent (site : Site ω)
  | register (waker : ω)
  | cancel (token : RegistrationToken ω) (result : Except RecvError T)

/-- What the latest poll has returned. -/
inductive Last (T ω : Type)
  | unpolled
  | pending (token : RegistrationToken ω)
  | ready (result : Except RecvError T)

structure St (T ω : Type) where
  inner : Inner T ω
  sender : SenderPc T
  receiver : ReceiverPc T ω
  last : Last T ω
  /-- For reference: the waker of the latest poll. -/
  waker : Option ω
  /-- For reference: it has been invoked since that poll began. -/
  woken : Bool
  /-- For reference: what polls have been ready with, the latest first. -/
  returned : List (Except RecvError T)

variable {T ω : Type}

def St.new : St T ω :=
  ⟨⟨none, false, false, false, .new⟩, .held, .idle, .unpolled, none, false, []⟩

inductive Act (T ω : Type)
  | send (value : T)
  | dropSender
  | sender
  | poll (waker : ω)
  | receiver
  | dropReceiver

namespace St

/-- The poll is ready; in the second call the registration is cancelled first. -/
def finish (s : St T ω) (site : Site ω) (result : Except RecvError T) : St T ω :=
  match site with
  | .first _ =>
    { s with receiver := .idle, last := .ready result, returned := result :: s.returned }
  | .second token => { s with receiver := .cancel token result }

variable [DecidableEq ω]

def wakeAll (s : St T ω) : St T ω :=
  { s with
    inner := { s.inner with wait := s.inner.wait.wakeAll.2 }
    woken := s.woken || s.waker.any fun waker => waker ∈ s.inner.wait.wakeAll.1 }

/-- One step of `send` and of `Sender::drop`. -/
def runSender (s : St T ω) : SenderPc T → Option (St T ω)
  | .held | .gone _ => none
  | .check value =>
    if s.inner.receiverDropped then some { s with sender := .dropStore (.err value) }
    else some { s with sender := .write value }
  | .write value =>
    some { s with inner := { s.inner with value := some value }, sender := .publish value }
  | .publish value => some { s with inner := { s.inner with sent := true }, sender := .wake value }
  | .wake value => some { s.wakeAll with sender := .dropStore (.ok value) }
  | .dropStore outcome =>
    some { s with inner := { s.inner with senderDropped := true }, sender := .dropWake outcome }
  | .dropWake outcome => some { s.wakeAll with sender := .gone outcome }

/-- One step of `poll`. -/
def runReceiver (s : St T ω) : ReceiverPc T ω → Option (St T ω)
  | .idle => none
  | .loadSent site =>
    some { s with receiver := if s.inner.sent then .take site else .loadDropped site }
  | .take site =>
    -- `value.ok_or(RecvError)`
    let result := match s.inner.value with
      | some value => .ok value
      | none => .error .mk
    some ({ s with inner := { s.inner with value := none } }.finish site result)
  | .loadDropped site =>
    if s.inner.senderDropped then some { s with receiver := .reloadSent site }
    else
      match site with
      | .first waker => some { s with receiver := .register waker }
      | .second token => some { s with receiver := .idle, last := .pending token }
  | .reloadSent site =>
    if s.inner.sent then some { s with receiver := .take site }
    else some (s.finish site (.error .mk))
  | .register waker =>
    some { s with
      inner := { s.inner with wait := (s.inner.wait.register waker).2 }
      receiver := .loadSent (.second (s.inner.wait.register waker).1) }
  | .cancel token result =>
    some { s with
      inner := { s.inner with wait := s.inner.wait.cancel token }
      receiver := .idle
      last := .ready result
      returned := result :: s.returned }

end St

def ReceiverPc.isIdle : ReceiverPc T ω → Bool
  | .idle => true
  | _ => false

def step [DecidableEq ω] (a : Act T ω) (s : St T ω) : Option (St T ω) :=
  match a with
  | .send value =>
    match s.sender with
    | .held => some { s with sender := .check value }
    | _ => none
  | .dropSender =>
    match s.sender with
    | .held => some { s with sender := .dropStore .unused }
    | _ => none
  | .sender => s.runSender s.sender
  | .poll waker =>
    if s.receiver.isIdle ∧ s.inner.receiverDropped = false then
      some { s with receiver := .loadSent (.first waker), waker := some waker, woken := false }
    else none
  | .receiver => s.runReceiver s.receiver
  | .dropReceiver =>
    if s.receiver.isIdle ∧ s.inner.receiverDropped = false then
      some { s with inner := { s.inner with receiverDropped := true } }
    else none

abbrev OneshotRun [DecidableEq ω] : List (Act T ω) → St T ω → Prop := Run (· = St.new) step Free

/-! ## The value -/

def SenderPc.published : SenderPc T → Option T
  | .wake value | .dropStore (.ok value) | .dropWake (.ok value) | .gone (.ok value) => some value
  | _ => none

def SenderPc.written : SenderPc T → Option T
  | .publish value => some value
  | _ => none

def SenderPc.dropped : SenderPc T → Bool
  | .dropWake _ | .gone _ => true
  | _ => false

/-- The results of the polls, also of the one that is about to return. -/
def St.results (s : St T ω) : List (Except RecvError T) :=
  match s.receiver with
  | .cancel _ result => result :: s.returned
  | _ => s.returned

/-- One result, after which there is nothing left. -/
def Only (value : T) (results : List (Except RecvError T)) : Prop :=
  ∃ later, results = later ++ [.ok value] ∧ ∀ r ∈ later, r = .error .mk

/-- What a poll has been ready with is the newest result. -/
def Reported (s : St T ω) : Prop :=
  ∀ result, s.last = .ready result → s.returned.head? = some result

structure Inv (s : St T ω) : Prop where
  reported : Reported s
  sent : s.inner.sent = s.sender.published.isSome
  dropped : s.inner.senderDropped = s.sender.dropped
  take : ∀ site, s.receiver = .take site → s.inner.sent = true
  reload : ∀ site, s.receiver = .reloadSent site → s.inner.senderDropped = true
  unsent : s.sender.published = none → s.inner.value = s.sender.written ∧
    (∀ r ∈ s.results, r = .error .mk) ∧ (s.sender.dropped = false → s.results = [])
  delivered : ∀ value, s.sender.published = some value →
    s.inner.value = some value ∧ s.results = [] ∨ s.inner.value = none ∧ Only value s.results

theorem Inv.new : Inv (St.new : St T ω) where
  reported := nofun
  sent := rfl
  dropped := rfl
  take := nofun
  reload := nofun
  unsent _ := ⟨rfl, nofun, fun _ => rfl⟩
  delivered := nofun

theorem Only.cons {value : T} {results : List (Except RecvError T)} (h : Only value results) :
    Only value (.error .mk :: results) := by
  obtain ⟨later, rfl, herr⟩ := h
  refine ⟨.error .mk :: later, rfl, fun r hr => ?_⟩
  rcases List.mem_cons.mp hr with rfl | hr
  · rfl
  · exact herr r hr

theorem Only.single (value : T) : Only value [.ok value] := ⟨[], rfl, nofun⟩

section

variable {s : St T ω}

theorem Inv.move (h : Inv s) {s' : St T ω} (hsent : s'.inner.sent = s.inner.sent)
    (hdropped : s'.inner.senderDropped = s.inner.senderDropped)
    (hvalue : s'.inner.value = s.inner.value) (hsender : s'.sender = s.sender)
    (hresults : s'.results = s.results)
    (hreported : Reported s') (htake : ∀ site, s'.receiver = .take site → s.inner.sent = true)
    (hreload : ∀ site, s'.receiver = .reloadSent site → s.inner.senderDropped = true) :
    Inv s' := by
  refine ⟨hreported, ?_, ?_, ?_, ?_, ?_, ?_⟩
  · rw [hsent, hsender]
    exact h.sent
  · rw [hdropped, hsender]
    exact h.dropped
  · rw [hsent]
    exact htake
  · rw [hdropped]
    exact hreload
  · rw [hvalue, hsender, hresults]
    exact h.unsent
  · rw [hvalue, hsender, hresults]
    exact h.delivered

theorem Reported.finish (h : Reported s) (site : Site ω) (result : Except RecvError T) :
    Reported (s.finish site result) := by
  cases site with
  | first waker =>
    rintro _ ⟨⟩
    rfl
  | second token => exact h

theorem Inv.taken (h : Inv s) {site : Site ω} (hpc : s.receiver = .take site)
    {result : Except RecvError T}
    (hresult : result = match s.inner.value with
      | some value => .ok value
      | none => .error .mk) :
    Inv ({ s with inner := { s.inner with value := none } }.finish site result) := by
  obtain ⟨value, hpublished⟩ : ∃ value, s.sender.published = some value := by
    rw [← Option.isSome_iff_exists, ← h.sent]
    exact h.take site hpc
  have hold : s.results = s.returned := by simp only [St.results, hpc]
  have honly : Only value (result :: s.returned) := by
    rcases h.delivered value hpublished with ⟨hvalue, hnone⟩ | ⟨hvalue, honly⟩
    · rw [hvalue] at hresult
      rw [hresult, ← hold, hnone]
      exact .single value
    · rw [hvalue] at hresult
      rw [hresult, ← hold]
      exact honly.cons
  have hinv {s' : St T ω} (hsent : s'.inner.sent = s.inner.sent)
      (hdropped : s'.inner.senderDropped = s.inner.senderDropped)
      (hvalue : s'.inner.value = none) (hsender : s'.sender = s.sender)
      (hresults : s'.results = result :: s.returned) (htake : ∀ site, s'.receiver ≠ .take site)
      (hreload : ∀ site, s'.receiver ≠ .reloadSent site) (hreported : Reported s') : Inv s' := by
    refine ⟨hreported, by rw [hsent, hsender, h.sent], by rw [hdropped, hsender, h.dropped],
      fun site hp => absurd hp (htake site), fun site hp => absurd hp (hreload site), ?_, ?_⟩
    · intro hnone
      rw [hsender, hpublished] at hnone
      cases hnone
    · intro value' hvalue'
      rw [hsender, hpublished] at hvalue'
      cases hvalue'
      rw [hresults]
      exact .inr ⟨hvalue, honly⟩
  have hreported : Reported { s with inner := { s.inner with value := none } } := h.reported
  cases site <;> exact hinv rfl rfl rfl rfl rfl nofun nofun (hreported.finish _ result)

theorem Inv.closed (h : Inv s) {site : Site ω} (hpc : s.receiver = .reloadSent site)
    (hsent : s.inner.sent = false) : Inv (s.finish site (.error .mk)) := by
  have hpublished : s.sender.published = none := by
    rw [← Option.isNone_iff_eq_none, ← Option.not_isSome, ← h.sent, hsent]
    rfl
  have hdropped : s.sender.dropped = true := by
    rw [← h.dropped]
    exact h.reload site hpc
  obtain ⟨hvalue, herr, -⟩ := h.unsent hpublished
  have hold : s.results = s.returned := by simp only [St.results, hpc]
  have hinv {s' : St T ω} (hinner : s'.inner = s.inner) (hsender : s'.sender = s.sender)
      (hresults : s'.results = .error .mk :: s.returned)
      (htake : ∀ site, s'.receiver ≠ .take site)
      (hreload : ∀ site, s'.receiver ≠ .reloadSent site) (hreported : Reported s') : Inv s' := by
    refine ⟨hreported, by rw [hinner, hsender, h.sent], by rw [hinner, hsender, h.dropped],
      fun site hp => absurd hp (htake site), fun site hp => absurd hp (hreload site), ?_, ?_⟩
    · intro _
      rw [hinner, hsender, hresults]
      refine ⟨hvalue, fun r hr => ?_, fun hnot => ?_⟩
      · rcases List.mem_cons.mp hr with rfl | hr
        · rfl
        · exact herr r (hold ▸ hr)
      · rw [hdropped] at hnot
        cases hnot
    · intro value hvalue'
      rw [hsender, hpublished] at hvalue'
      cases hvalue'
  cases site <;> exact hinv rfl rfl rfl nofun nofun (h.reported.finish _ _)

theorem Inv.sender (h : Inv s) {pc : SenderPc T} {value : Option T}
    (hpublished : pc.published = s.sender.published) (hdropped : pc.dropped = s.sender.dropped)
    (hvalue : s.sender.published = none → value = pc.written)
    (hkept : s.sender.published ≠ none → value = s.inner.value) :
    Inv { s with inner := { s.inner with value := value }, sender := pc } where
  reported := h.reported
  sent := by rw [hpublished]; exact h.sent
  dropped := by rw [hdropped]; exact h.dropped
  take := h.take
  reload := h.reload
  unsent hnone := by
    rw [hpublished] at hnone
    rw [hdropped]
    exact ⟨hvalue hnone, (h.unsent hnone).2⟩
  delivered v hv := by
    rw [hpublished] at hv
    have hsame : value = s.inner.value := hkept (by rw [hv]; nofun)
    rw [hsame]
    exact h.delivered v hv

theorem Inv.published (h : Inv s) {value : T} (hpc : s.sender = .publish value) :
    Inv { s with inner := { s.inner with sent := true }, sender := .wake value } where
  reported := h.reported
  sent := rfl
  dropped := by
    have hdropped := h.dropped
    rw [hpc] at hdropped
    exact hdropped
  take _ _ := rfl
  reload := h.reload
  unsent := nofun
  delivered v hv := by
    cases hv
    obtain ⟨hvalue, -, hnone⟩ := h.unsent (by rw [hpc]; rfl)
    rw [hpc] at hvalue hnone
    exact .inl ⟨hvalue, hnone rfl⟩

theorem Inv.dropStored (h : Inv s) {outcome : Outcome T} (hpc : s.sender = .dropStore outcome) :
    Inv { s with
      inner := { s.inner with senderDropped := true }
      sender := .dropWake outcome } := by
  have hpublished : (SenderPc.dropWake outcome).published = s.sender.published := by
    rw [hpc]
    cases outcome <;> rfl
  refine ⟨h.reported, ?_, rfl, h.take, fun _ _ => rfl, fun hnone => ?_, fun v hv => ?_⟩
  · rw [hpublished]
    exact h.sent
  · rw [hpublished] at hnone
    obtain ⟨hvalue, herr, -⟩ := h.unsent hnone
    rw [hpc] at hvalue
    exact ⟨hvalue, herr, nofun⟩
  · rw [hpublished] at hv
    exact h.delivered v hv

theorem ReceiverPc.eq_idle {pc : ReceiverPc T ω} (h : pc.isIdle) : pc = .idle := by
  cases pc <;> first | rfl | cases h

variable [DecidableEq ω] {s' : St T ω}

theorem Inv.runReceiver (h : Inv s) (hst : s.runReceiver s.receiver = some s') : Inv s' := by
  generalize hpc : s.receiver = pc at hst
  cases pc with
  | idle =>
    cases hst
  | loadSent site =>
    cases hst
    have hold : s.results = s.returned := by simp only [St.results, hpc]
    cases hsent : s.inner.sent with
    | true => exact h.move rfl rfl rfl rfl hold.symm h.reported (fun _ _ => hsent) nofun
    | false => exact h.move rfl rfl rfl rfl hold.symm h.reported nofun nofun
  | take site =>
    cases hst
    exact h.taken hpc rfl
  | loadDropped site =>
    have hold : s.results = s.returned := by simp only [St.results, hpc]
    simp only [St.runReceiver] at hst
    split at hst
    · next hdropped =>
      cases hst
      exact h.move rfl rfl rfl rfl hold.symm h.reported nofun fun _ _ => hdropped
    · split at hst <;> cases hst
      · exact h.move rfl rfl rfl rfl hold.symm h.reported nofun nofun
      · exact h.move rfl rfl rfl rfl hold.symm nofun nofun nofun
  | reloadSent site =>
    have hold : s.results = s.returned := by simp only [St.results, hpc]
    simp only [St.runReceiver] at hst
    split at hst
    · next hsent =>
      cases hst
      exact h.move rfl rfl rfl rfl hold.symm h.reported (fun _ _ => hsent) nofun
    · next hsent =>
      cases hst
      exact h.closed hpc (by simpa using hsent)
  | register waker =>
    cases hst
    have hold : s.results = s.returned := by simp only [St.results, hpc]
    exact h.move rfl rfl rfl rfl hold.symm h.reported nofun nofun
  | cancel token result =>
    cases hst
    have hold : s.results = result :: s.returned := by simp only [St.results, hpc]
    refine h.move rfl rfl rfl rfl hold.symm ?_ nofun nofun
    rintro _ ⟨⟩
    rfl

theorem Inv.runSender (h : Inv s) (hst : s.runSender s.sender = some s') : Inv s' := by
  generalize hpc : s.sender = pc at hst
  cases pc with
  | held | gone outcome =>
    cases hst
  | check value =>
    simp only [St.runSender] at hst
    have hvalue := (h.unsent (by rw [hpc]; rfl)).1
    rw [hpc] at hvalue
    split at hst <;> cases hst
    · exact h.sender (by rw [hpc]; rfl) (by rw [hpc]; rfl) (fun _ => hvalue) fun _ => rfl
    · exact h.sender (by rw [hpc]; rfl) (by rw [hpc]; rfl) (fun _ => hvalue) fun _ => rfl
  | write value =>
    cases hst
    exact h.sender (by rw [hpc]; rfl) (by rw [hpc]; rfl) (fun _ => rfl)
      fun hp => absurd (by rw [hpc]; rfl) hp
  | publish value =>
    cases hst
    exact h.published hpc
  | wake value =>
    cases hst
    have hmoved : Inv { s with sender := .dropStore (.ok value) } :=
      h.sender (by rw [hpc]; rfl) (by rw [hpc]; rfl) (fun hp => by rw [hpc] at hp; cases hp)
        fun _ => rfl
    exact hmoved.move rfl rfl rfl rfl rfl hmoved.reported hmoved.take hmoved.reload
  | dropStore outcome =>
    cases hst
    exact h.dropStored hpc
  | dropWake outcome =>
    cases hst
    have hmoved : Inv { s with sender := .gone outcome } := by
      refine h.sender ?_ (by rw [hpc]; rfl) (fun hp => ?_) fun _ => rfl
      · rw [hpc]
        cases outcome <;> rfl
      · have hvalue := (h.unsent hp).1
        rw [hpc] at hvalue
        exact hvalue
    exact hmoved.move rfl rfl rfl rfl rfl hmoved.reported hmoved.take hmoved.reload

theorem Inv.step {a : Act T ω} (h : Inv s) (hst : Oneshot.step a s = some s') : Inv s' := by
  cases a with
  | send value | dropSender =>
    simp only [Oneshot.step] at hst
    split at hst
    · next hpc =>
      cases hst
      have hvalue := (h.unsent (by rw [hpc]; rfl)).1
      rw [hpc] at hvalue
      exact h.sender (by rw [hpc]; rfl) (by rw [hpc]; rfl) (fun _ => hvalue) fun _ => rfl
    · cases hst
  | sender => exact h.runSender hst
  | poll waker =>
    simp only [Oneshot.step, Option.ite_none_right_eq_some] at hst
    obtain ⟨⟨hidle, -⟩, heq⟩ := hst
    cases heq
    have hold : s.results = s.returned := by
      simp only [St.results, ReceiverPc.eq_idle hidle]
    exact h.move rfl rfl rfl rfl hold.symm h.reported nofun nofun
  | receiver => exact h.runReceiver hst
  | dropReceiver =>
    simp only [Oneshot.step, Option.ite_none_right_eq_some] at hst
    obtain ⟨-, heq⟩ := hst
    cases heq
    exact h.move rfl rfl rfl rfl rfl h.reported h.take h.reload

theorem inv {tr : List (Act T ω)} (h : OneshotRun tr s) : Inv s := by
  refine h.invariant (I := fun _ s => Inv s) ?_ (fun _ _ _ _ hI _ hst => hI.step hst)
  rintro s rfl
  exact .new

/-! ## The waker -/

end

/-- The registration the latest poll counts on. -/
def St.token (s : St T ω) : Option (RegistrationToken ω) :=
  match s.receiver with
  | .loadSent (.second token) | .loadDropped (.second token) => some token
  | .idle =>
    match s.last with
    | .pending token => some token
    | _ => none
  | _ => none

def St.phase (s : St T ω) : Alarm.Phase :=
  match s.receiver with
  | .loadSent (.second _) | .loadDropped (.second _) => .registered
  | .idle =>
    match s.last with
    | .pending _ => .looked
    | _ => .out
  | _ => .out

/-- The waker the poll is about to register. -/
def ReceiverPc.asking : ReceiverPc T ω → Option ω
  | .loadSent (.first waker) | .loadDropped (.first waker) | .register waker => some waker
  | _ => none

def St.Asking (s : St T ω) : Prop := ∀ waker, s.receiver.asking = some waker → s.waker = some waker

/-- The receiver as a waiter; its condition is that the sender is dropped. -/
def St.alarm (s : St T ω) : Alarm.St Unit where
  phase := s.phase
  listed := ∃ token, s.token = some token ∧ s.inner.wait.Holds token ∧ s.waker = some token.waker
  woken := s.woken
  holds := s.inner.senderDropped
  ringing _ := ∃ outcome, s.sender = .dropWake outcome

section

variable {s s' : St T ω}

theorem alarm_kept (hreceiver : s'.receiver = s.receiver) (hlast : s'.last = s.last)
    (hwait : s'.inner.wait = s.inner.wait) (hwaker : s'.waker = s.waker)
    (hwoken : s'.woken = s.woken) : Alarm.Kept s.alarm s'.alarm := by
  have htoken : s'.token = s.token := by simp only [St.token, hreceiver, hlast]
  refine ⟨?_, fun _ h => ?_, fun _ h => .inl ?_⟩
  · simp only [St.alarm, St.phase, hreceiver, hlast]
  · simpa only [St.alarm, hwoken] using h
  · simpa only [St.alarm, htoken, hwait, hwaker] using h

variable [DecidableEq ω]

theorem alarm_ring {pc : SenderPc T} :
    Alarm.Step s.alarm { s.wakeAll with sender := pc }.alarm := by
  have hwoken (h : s.alarm.listed) : { s.wakeAll with sender := pc }.alarm.woken := by
    obtain ⟨token, -, hholds, hwaker⟩ := h
    simp only [St.alarm, St.wakeAll, hwaker, Option.any_some, hholds.wakeAll, decide_true,
      Bool.or_true]
  refine .ring ⟨rfl, fun _ h => ?_, fun _ h => .inr (hwoken h)⟩ fun _ h => hwoken h
  have hold : s.woken = true := h
  simp only [St.alarm, St.wakeAll, hold, Bool.true_or]

theorem runSender_alarm (hst : s.runSender s.sender = some s') :
    Alarm.Step s.alarm s'.alarm := by
  -- while the sender does not ring, nobody does
  have hother {s' : St T ω} (hpc : ∀ outcome, s.sender ≠ .dropWake outcome)
      (hdropped : s'.inner.senderDropped = s.inner.senderDropped)
      (hkept : Alarm.Kept s.alarm s'.alarm) : Alarm.Step s.alarm s'.alarm := by
    refine .other hkept (fun _ h => ?_) fun _ _ ⟨outcome, h⟩ => absurd h (hpc outcome)
    simpa only [St.alarm, hdropped] using h
  generalize hpc : s.sender = pc at hst
  cases pc with
  | held | gone outcome =>
    cases hst
  | check value =>
    simp only [St.runSender] at hst
    split at hst <;> cases hst
    · exact hother (by rw [hpc]; nofun) rfl (alarm_kept rfl rfl rfl rfl rfl)
    · exact hother (by rw [hpc]; nofun) rfl (alarm_kept rfl rfl rfl rfl rfl)
  | write value | publish value =>
    cases hst
    exact hother (by rw [hpc]; nofun) rfl (alarm_kept rfl rfl rfl rfl rfl)
  | wake value | dropWake outcome =>
    cases hst
    exact alarm_ring
  | dropStore outcome =>
    cases hst
    exact .announce () (alarm_kept rfl rfl rfl rfl rfl) ⟨outcome, rfl⟩

theorem runReceiver_alarm (hst : s.runReceiver s.receiver = some s')
    (hasking : s.Asking) : Alarm.Step s.alarm s'.alarm := by
  generalize hpc : s.receiver = pc at hst
  cases pc with
  | idle =>
    cases hst
  | loadSent site =>
    cases hst
    cases hsent : s.inner.sent with
    | true => exact .out rfl
    | false =>
      cases site with
      | first waker => exact .out rfl
      | second token =>
        have htoken : s.token = some token := by simp only [St.token, hpc]
        have hphase : s.phase = .registered := by simp only [St.phase, hpc]
        refine .other ⟨hphase.symm, fun _ h => h, fun _ ⟨_, ht, h⟩ => .inl ⟨token, rfl, ?_⟩⟩ ?_ ?_
        · rw [htoken] at ht
          cases ht
          exact h
        · exact fun _ h => h
        · exact fun _ _ h => .inl h
  | take site =>
    cases hst
    cases site <;> exact .out rfl
  | loadDropped site =>
    simp only [St.runReceiver] at hst
    split at hst
    · cases hst
      exact .out rfl
    · next hnot =>
      cases site with
      | first waker =>
        cases hst
        exact .out rfl
      | second token =>
        -- the last look
        cases hst
        have htoken : s.token = some token := by simp only [St.token, hpc]
        have hphase : s.phase = .registered := by simp only [St.phase, hpc]
        refine .look hphase rfl hnot id fun ⟨_, ht, h⟩ => ⟨token, rfl, ?_⟩
        rw [htoken] at ht
        cases ht
        exact h
  | reloadSent site =>
    simp only [St.runReceiver] at hst
    split at hst
    · cases hst
      exact .out rfl
    · cases hst
      cases site <;> exact .out rfl
  | register waker =>
    cases hst
    refine .register rfl ⟨_, rfl, s.inner.wait.holds_register waker, ?_⟩
    rw [s.inner.wait.register_waker waker]
    exact hasking waker (by rw [hpc]; rfl)
  | cancel token result =>
    cases hst
    exact .out rfl

theorem runReceiver_asking (h : s.Asking) (hst : s.runReceiver s.receiver = some s') :
    s'.Asking := by
  intro waker hw
  generalize hpc : s.receiver = pc at hst
  cases pc with
  | idle =>
    cases hst
  | loadSent site =>
    cases hst
    cases hsent : s.inner.sent with
    | true =>
      rw [hsent] at hw
      cases hw
    | false =>
      rw [hsent] at hw
      refine h waker ?_
      rw [hpc]
      cases site <;> exact hw
  | take site =>
    cases hst
    cases site <;> cases hw
  | loadDropped site =>
    simp only [St.runReceiver] at hst
    split at hst
    · cases hst
      cases hw
    · split at hst <;> cases hst
      · refine h waker ?_
        rw [hpc]
        exact hw
      · cases hw
  | reloadSent site =>
    simp only [St.runReceiver] at hst
    split at hst <;> cases hst
    · cases hw
    · cases site <;> cases hw
  | register waker | cancel token result =>
    cases hst
    cases hw

theorem runSender_asking (h : s.Asking) (hst : s.runSender s.sender = some s') : s'.Asking := by
  generalize hpc : s.sender = pc at hst
  cases pc with
  | held | gone outcome =>
    cases hst
  | check value =>
    simp only [St.runSender] at hst
    split at hst <;> (cases hst; exact h)
  | _ =>
    cases hst
    exact h

/-- The receiver is a waiter whose condition is `sender_dropped`. -/
theorem step_alarm {a : Act T ω} (h : s.Asking) (hst : step a s = some s') :
    s'.Asking ∧ Alarm.Step s.alarm s'.alarm := by
  -- the sender is not dropped when its life begins
  have hheld {pc : SenderPc T} (hpc : s.sender = .held) :
      Alarm.Step s.alarm { s with sender := pc }.alarm := by
    refine .other (alarm_kept rfl rfl rfl rfl rfl) (fun _ h => h) fun _ _ ⟨outcome, hring⟩ => ?_
    rw [hpc] at hring
    cases hring
  cases a with
  | send value | dropSender =>
    simp only [step] at hst
    split at hst
    · next hpc =>
      cases hst
      exact ⟨h, hheld hpc⟩
    · cases hst
  | sender => exact ⟨runSender_asking h hst, runSender_alarm hst⟩
  | poll waker =>
    simp only [step, Option.ite_none_right_eq_some] at hst
    obtain ⟨-, heq⟩ := hst
    cases heq
    exact ⟨fun _ hw => hw, .out rfl⟩
  | receiver => exact ⟨runReceiver_asking h hst, runReceiver_alarm hst h⟩
  | dropReceiver =>
    simp only [step, Option.ite_none_right_eq_some] at hst
    obtain ⟨-, heq⟩ := hst
    cases heq
    exact ⟨h, .other (alarm_kept rfl rfl rfl rfl rfl) (fun _ h => h) fun _ _ hring => .inl hring⟩

theorem alarm_inv {tr : List (Act T ω)} (h : OneshotRun tr s) : Alarm.Inv s.alarm := by
  have hinv : s.Asking ∧ Alarm.Inv s.alarm := by
    refine h.invariant (I := fun _ s => s.Asking ∧ Alarm.Inv s.alarm) ?_ ?_
    · rintro s rfl
      exact ⟨nofun, .of_out rfl⟩
    · rintro _ s a s' ⟨hasking, hI⟩ _ hst
      obtain ⟨hasking', hstep⟩ := step_alarm hasking hst
      exact ⟨hasking', hI.step hstep⟩
  exact hinv.2

end

/-! ## Delivery -/

/-- What a channel is for. The first of the `returned` results is the last of the list. -/
structure DeliversOnce (s : St T ω) : Prop where
  /-- A poll that is ready returns the newest of them. -/
  reported : ∀ result, s.last = .ready result → s.returned.head? = some result
  /-- The value is not accessed by both sides at once. -/
  exclusive : ∀ value site, s.sender = .write value → s.receiver ≠ .take site
  /-- After a successful `send` the first result is its value. -/
  first : ∀ value, s.sender = .gone (.ok value) →
    ∀ result, s.returned.getLast? = some result → result = .ok value
  /-- The first result is `RecvError` only if the sender was dropped without a successful `send`. -/
  closed : s.returned.getLast? = some (.error .mk) →
    ∃ outcome, (s.sender = .dropWake outcome ∨ s.sender = .gone outcome) ∧
      ∀ value, outcome ≠ .ok value
  /-- A value that is handed back is not received, nor is any other. -/
  handedBack : ∀ value, s.sender = .gone (.err value) → ∀ result ∈ s.returned, result = .error .mk
  /-- No second value is received. -/
  once : ∀ value, .ok value ∈ s.returned →
    ∃ later, s.returned = later ++ [.ok value] ∧ ∀ result ∈ later, result = .error .mk
  /-- Between the calls, a receiver that waits for a sender that is gone has been woken. -/
  awake : ∀ outcome token, s.sender = .gone outcome → s.receiver = .idle → s.last = .pending token →
    s.woken = true

section

variable {s : St T ω}

/-- What has been returned is all there is, or all but the newest result. -/
theorem St.results_eq (s : St T ω) :
    s.results = s.returned ∨ ∃ result, s.results = result :: s.returned := by
  unfold St.results
  split
  · exact .inr ⟨_, rfl⟩
  · exact .inl rfl

theorem St.returned_subset (s : St T ω) {result : Except RecvError T} (h : result ∈ s.returned) :
    result ∈ s.results := by
  rcases s.results_eq with heq | ⟨newest, heq⟩
  · rwa [heq]
  · rw [heq]
    exact List.mem_cons_of_mem _ h

/-- With a result that was returned, all but the first are errors. -/
theorem Only.returned {value : T} (h : Only value s.results) (hne : s.returned ≠ []) :
    Only value s.returned := by
  rcases s.results_eq with heq | ⟨newest, heq⟩
  · rwa [heq] at h
  · obtain ⟨later, hlater, herr⟩ := h
    rw [heq] at hlater
    cases later with
    | nil => exact absurd (List.cons.inj hlater).2 hne
    | cons r later =>
      exact ⟨later, (List.cons.inj hlater).2, fun r hr => herr r (List.mem_cons_of_mem _ hr)⟩

theorem Only.getLast? {value : T} {results : List (Except RecvError T)} (h : Only value results) :
    results.getLast? = some (.ok value) := by
  obtain ⟨later, rfl, -⟩ := h
  exact List.getLast?_concat

/-- When a value was published and there is a result, it is the first. -/
theorem Inv.first (h : Inv s) {value : T} (hpublished : s.sender.published = some value)
    (hne : s.returned ≠ []) : Only value s.returned := by
  rcases h.delivered value hpublished with ⟨-, hnone⟩ | ⟨-, honly⟩
  · obtain ⟨r, hr⟩ := List.exists_mem_of_ne_nil _ hne
    have hmem := s.returned_subset hr
    rw [hnone] at hmem
    cases hmem
  · exact honly.returned hne

theorem SenderPc.of_dropped {pc : SenderPc T} (hdropped : pc.dropped = true)
    (hnone : pc.published = none) : ∃ outcome, (pc = .dropWake outcome ∨ pc = .gone outcome) ∧
      ∀ value, outcome ≠ .ok value := by
  cases pc with
  | dropWake outcome =>
    refine ⟨outcome, .inl rfl, ?_⟩
    rintro value rfl
    cases hnone
  | gone outcome =>
    refine ⟨outcome, .inr rfl, ?_⟩
    rintro value rfl
    cases hnone
  | _ => cases hdropped

/-- **A oneshot channel delivers exactly once**, in every state of every interleaving of a sender
that sends or is dropped with a receiver that is polled with any wakers or dropped. -/
theorem oneshot_delivers_once [DecidableEq ω] {tr : List (Act T ω)} (h : OneshotRun tr s) :
    DeliversOnce s := by
  have hinv := inv h
  refine ⟨hinv.reported, ?_, ?_, ?_, ?_, ?_, ?_⟩
  · intro value site hpc htake
    have hsent := hinv.take site htake
    rw [hinv.sent, hpc] at hsent
    cases hsent
  · intro value hpc result hresult
    have honly : Only value s.returned := hinv.first (by rw [hpc]; rfl)
      (by rintro hnil; rw [hnil] at hresult; cases hresult)
    rw [honly.getLast?] at hresult
    exact (Option.some.inj hresult).symm
  · intro hresult
    have hne : s.returned ≠ [] := by
      rintro hnil
      rw [hnil] at hresult
      cases hresult
    cases hpublished : s.sender.published with
    | some value =>
      rw [(hinv.first hpublished hne).getLast?] at hresult
      cases hresult
    | none =>
      refine SenderPc.of_dropped ?_ hpublished
      by_contra hnot
      have hnone := (hinv.unsent hpublished).2.2 (by simpa using hnot)
      have hmem := s.returned_subset (List.mem_of_getLast? hresult)
      rw [hnone] at hmem
      cases hmem
  · intro value hpc result hresult
    exact (hinv.unsent (by rw [hpc]; rfl)).2.1 result (s.returned_subset hresult)
  · intro value hmem
    cases hpublished : s.sender.published with
    | none => cases (hinv.unsent hpublished).2.1 _ (s.returned_subset hmem)
    | some value' =>
      obtain ⟨later, heq, herr⟩ := hinv.first hpublished (List.ne_nil_of_mem hmem)
      rw [heq, List.mem_append, List.mem_singleton] at hmem
      rcases hmem with hmem | hmem
      · cases herr _ hmem
      · cases hmem
        exact ⟨later, heq, herr⟩
  · intro outcome token hpc hidle hlast
    refine (alarm_inv h).awake ?_ ?_ ?_
    · rintro _ ⟨outcome', hring⟩
      rw [hpc] at hring
      cases hring
    · simp only [St.alarm, St.phase, hidle, hlast]
    · show s.inner.senderDropped = true
      rw [hinv.dropped, hpc]
      rfl

end

/-- The receiver is pending when the value is written, sees neither flag, and is woken by `send`;
polled with another waker, it gets the value, and an error after that. -/
def sendToWaiter : List (Act Nat Nat) :=
  [.poll 0, .receiver, .receiver, .receiver, .receiver, .send 7, .sender, .sender, .receiver,
    .sender, .sender, .sender, .sender, .poll 1, .receiver, .receiver, .poll 2, .receiver,
    .receiver]

theorem oneshot_delivers_once_waiter : ∃ s : St Nat Nat, OneshotRun sendToWaiter.reverse s ∧
    s.sender = .gone (.ok 7) ∧ s.last = .ready (.error .mk) ∧
      s.returned = [.error .mk, .ok 7] ∧ DeliversOnce s := by
  refine ⟨_, Run.of_exec sendToWaiter rfl rfl, rfl, rfl, rfl, ?_⟩
  exact oneshot_delivers_once (Run.of_exec sendToWaiter rfl rfl)

end Dtact.Oneshot
