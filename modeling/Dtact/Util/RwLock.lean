import Mathlib.Data.Fintype.Card
import Dtact.Lib.Bell
import Dtact.Lib.Transition
import Dtact.Util.Permits
import Dtact.Util.WaitQueue
import Dtact.Words

/-!
# `RwLock`

The word `state` is the number of readers, or `WRITE_LOCKED`. The last reader to leave and every
writer that leaves wake all waiters. Every operation on `state` and on the wait queue is one step.
Guards are aligned to 64 bytes, so no more than `2 ^ 58` are alive, and their count cannot overflow.
-/

namespace Dtact.RwLock

open Transition Permits

/-! ## The word -/

def writeLocked : Int := -1

/-- Where a thread is in `try_acquire_read`: before the load, or before the CAS with the
value seen last, which is not negative. -/
inductive Try
  | load
  | cas (current : Int) (h : 0 ≤ current)

/-- The loop goes on with the value seen. -/
def observe (current : Int) : Attempt Int Try :=
  if h : 0 ≤ current then .goto (.cas current h) else .failed

def tryAcquireRead (spurious : Bool) : Try → Int → Attempt Int Try
  | .load, state => observe state
  | .cas current _, state =>
    if state = current ∧ !spurious then .taken (isizeWrap (current + 1)) else observe state

/-- One strong CAS. -/
def tryWrite (state : Int) : Attempt Int Try :=
  if state = 0 then .taken writeLocked else .failed

inductive Kind
  | read
  | write
deriving DecidableEq

def attempt : Kind → Bool → Try → Int → Attempt Int Try
  | .read, spurious, t, state => tryAcquireRead spurious t state
  | .write, _, _, state => tryWrite state

/-! ## The tasks -/

/-- The addresses a guard may have. -/
abbrev Addr : Type := Fin (2 ^ 58)

/-- Where a task is in `poll_read` or `poll_write`. -/
inductive PollPc
  | check
  | fast (t : Try)
  | register
  | slow (token : Nat) (t : Try)
  | cancel (token : Nat)

/-- `poll_read` does not look at the waiters. -/
def Kind.start : Kind → PollPc
  | .read => .fast .load
  | .write => .check

/-- What a task is at: nothing, `try_read`, a poll of a future of `read()` or `write()`,
which is `pending` when its latest poll has returned so, or the drop of a guard that has
changed the word and has `wake_all` ahead. -/
inductive Activity
  | idle
  | trying (t : Try)
  | polling (kind : Kind) (pc : PollPc)
  | pending (kind : Kind)
  | waking

structure Task where
  activity : Activity
  /-- The waker has been invoked since the latest poll began. -/
  woken : Bool

structure St (ι : Type) where
  state : Int
  wait : WaitQueue ι
  /-- The read guards and the write guards that are alive. -/
  readers : Finset Addr
  writers : Finset Addr
  task : ι → Task

variable {ι : Type}

def St.new : St ι := ⟨0, .new, ∅, ∅, fun _ => ⟨.idle, false⟩⟩

section

variable [DecidableEq ι]

namespace St

def set (s : St ι) (j : ι) (activity : Activity) : St ι :=
  { s with task := Function.update s.task j { s.task j with activity } }

/-- The CAS has succeeded; the guard gets an address that is not in use. -/
def acquire (s : St ι) (j : ι) (kind : Kind) (state : Int) (addr : Addr) (next : Activity) :
    Option (St ι) :=
  if addr ∈ s.readers ∨ addr ∈ s.writers then none
  else match kind with
    | .read => some { s.set j next with state, readers := insert addr s.readers }
    | .write => some { s.set j next with state, writers := insert addr s.writers }

/-- One operation of an attempt to take the lock, and what the task is at when the attempt
goes on, has succeeded or has failed. -/
def attempt (s : St ι) (j : ι) (kind : Kind) (spurious : Bool) (addr : Addr) (t : Try)
    (goto : Try → Activity) (taken failed : Activity) : Option (St ι) :=
  match RwLock.attempt kind spurious t s.state with
  | .goto t => some (s.set j (goto t))
  | .taken state => s.acquire j kind state addr taken
  | .failed => some (s.set j failed)

end St

/-- One step of `poll_read` or `poll_write`. -/
def pollStep (j : ι) (kind : Kind) (spurious : Bool) (addr : Addr) (s : St ι) :
    PollPc → Option (St ι)
  | .check =>
    if s.wait.hasWaiters then some (s.set j (.polling kind .register))
    else some (s.set j (.polling kind (.fast .load)))
  | .fast t =>
    s.attempt j kind spurious addr t (fun t => .polling kind (.fast t)) .idle
      (.polling kind .register)
  | .register =>
    let (token, wait) := s.wait.register j
    some { s.set j (.polling kind (.slow token.number .load)) with wait }
  | .slow token t =>
    s.attempt j kind spurious addr t (fun t => .polling kind (.slow token t))
      (.polling kind (.cancel token)) (.pending kind)
  | .cancel token => some { s.set j .idle with wait := s.wait.cancel ⟨token, j⟩ }

def run (j : ι) (spurious : Bool) (addr : Addr) (s : St ι) : Activity → Option (St ι)
  | .idle | .pending _ => none
  | .trying t => s.attempt j .read spurious addr t .trying .idle .idle
  | .polling kind pc => pollStep j kind spurious addr s pc
  | .waking =>
    let (wakers, wait) := s.wait.wakeAll
    let s := s.set j .idle
    some { s with
      wait
      task := WaitQueue.invoke wakers (fun t => { t with woken := true }) s.task }

/-- `try_write` and the first operation of a guard's drop are single steps. -/
inductive Act (ι : Type)
  | poll (j : ι) (kind : Kind)
  | dropFuture (j : ι)
  | tryRead (j : ι)
  | tryWrite (j : ι) (addr : Addr)
  | dropReadGuard (j : ι) (addr : Addr)
  | dropWriteGuard (j : ι) (addr : Addr)
  | run (j : ι) (spurious : Bool) (addr : Addr)

/-- A future is polled for the first time, or again. -/
def Activity.pollable (kind : Kind) : Activity → Bool
  | .idle => true
  | .pending kind' => kind' = kind
  | _ => false

def Activity.isIdle : Activity → Bool
  | .idle => true
  | _ => false

def Activity.isPending : Activity → Bool
  | .pending _ => true
  | _ => false

def step : Act ι → St ι → Option (St ι)
  | .poll j kind, s =>
    if (s.task j).activity.pollable kind then
      some { s with task := Function.update s.task j ⟨.polling kind kind.start, false⟩ }
    else none
  | .dropFuture j, s => if (s.task j).activity.isPending then some (s.set j .idle) else none
  | .tryRead j, s =>
    if (s.task j).activity.isIdle then some (s.set j (.trying .load)) else none
  | .tryWrite j addr, s =>
    if (s.task j).activity.isIdle then
      s.attempt j .write false addr .load .trying .idle .idle
    else none
  | .dropReadGuard j addr, s =>
    if (s.task j).activity.isIdle ∧ addr ∈ s.readers then
      let s' := { s with state := isizeWrap (s.state - 1), readers := s.readers.erase addr }
      if s.state = 1 then some (s'.set j .waking) else some s'
    else none
  | .dropWriteGuard j addr, s =>
    if (s.task j).activity.isIdle ∧ addr ∈ s.writers then
      some { s.set j .waking with state := 0, writers := s.writers.erase addr }
    else none
  | .run j spurious addr, s => run j spurious addr s (s.task j).activity

end

/-! ## Exclusion -/

/-- The word counts the read guards, or there is one write guard and no other. -/
def Excl (s : St ι) : Prop :=
  (s.state = s.readers.card ∧ s.writers = ∅) ∨
    (s.state = writeLocked ∧ s.writers.card = 1 ∧ s.readers = ∅)

section

variable {s s' : St ι}

theorem card_lt (a : Finset Addr) : (a.card : Int) < 2 ^ 59 := by
  have hle : a.card ≤ 2 ^ 58 := card_finset_fin_le a
  omega

theorem Excl.readers_of_nonneg (h : Excl s) (hpos : 0 ≤ s.state) :
    s.state = s.readers.card ∧ s.writers = ∅ := by
  rcases h with h | ⟨hstate, -⟩
  · exact h
  · rw [hstate] at hpos
    exact absurd hpos (by decide)

theorem observe_ne_taken (current word : Int) : observe current ≠ .taken word := by
  unfold observe
  split <;> simp

variable {spurious : Bool} {t : Try} {word : Int} {kind : Kind}

theorem Excl.taken_read (h : Excl s) (htaken : attempt .read spurious t s.state = .taken word) :
    0 ≤ s.state ∧ word = s.state + 1 := by
  cases t with
  | load => exact absurd htaken (observe_ne_taken _ _)
  | cas current hpos =>
    simp only [attempt, tryAcquireRead] at htaken
    split at htaken
    case isTrue heq =>
      cases htaken
      have hcount := (h.readers_of_nonneg (heq.1 ▸ hpos)).1
      have hlt := card_lt s.readers
      rw [← heq.1, isizeWrap_eq (by omega) (by omega)]
      exact ⟨heq.1 ▸ hpos, rfl⟩
    case isFalse => exact absurd htaken (observe_ne_taken _ _)

theorem taken_write {state : Int} (htaken : attempt .write spurious t state = .taken word) :
    state = 0 ∧ word = writeLocked := by
  simp only [attempt, tryWrite] at htaken
  split at htaken
  case isTrue hzero =>
    cases htaken
    exact ⟨hzero, rfl⟩
  case isFalse => cases htaken

theorem failed_ne_zero {state : Int} (hfailed : attempt kind spurious t state = .failed) :
    state ≠ 0 := by
  have hobserve (current : Int) (h : observe current = .failed) : current ≠ 0 := by
    unfold observe at h
    split at h
    · cases h
    · omega
  cases kind with
  | read =>
    cases t with
    | load => exact hobserve state hfailed
    | cas current hpos =>
      simp only [attempt, tryAcquireRead] at hfailed
      split at hfailed
      · cases hfailed
      · exact hobserve state hfailed
  | write =>
    simp only [attempt, tryWrite] at hfailed
    split at hfailed
    · cases hfailed
    · next hne => exact hne

variable [DecidableEq ι] {j : ι} {spurious : Bool} {addr : Addr}

theorem Excl.acquire (h : Excl s) {next : Activity}
    (htaken : attempt kind spurious t s.state = .taken word)
    (hst : s.acquire j kind word addr next = some s') : Excl s' := by
  unfold St.acquire at hst
  split at hst
  case isTrue => cases hst
  case isFalse hfree =>
    rw [not_or] at hfree
    cases kind with
    | read =>
      cases hst
      obtain ⟨hpos, rfl⟩ := h.taken_read htaken
      obtain ⟨hcount, hnone⟩ := h.readers_of_nonneg hpos
      refine .inl ⟨?_, hnone⟩
      simp only [Finset.card_insert_of_notMem hfree.1]
      omega
    | write =>
      cases hst
      obtain ⟨hzero, rfl⟩ := taken_write htaken
      obtain ⟨hcount, hnone⟩ := h.readers_of_nonneg (Int.le_of_eq hzero.symm)
      have hreaders : s.readers = ∅ := by
        rw [← Finset.card_eq_zero]
        omega
      exact .inr ⟨rfl, by simp [hnone], hreaders⟩

theorem Excl.attempt (h : Excl s) {goto : Try → Activity} {taken failed : Activity}
    (hst : s.attempt j kind spurious addr t goto taken failed = some s') : Excl s' := by
  unfold St.attempt at hst
  split at hst
  · cases hst
    exact h
  · next htaken => exact h.acquire htaken hst
  · cases hst
    exact h

theorem Excl.run {activity : Activity} (h : Excl s)
    (hst : run j spurious addr s activity = some s') : Excl s' := by
  cases activity with
  | idle | pending _ => cases hst
  | trying t => exact h.attempt hst
  | waking =>
    cases hst
    exact h
  | polling kind pc =>
    cases pc with
    | check =>
      simp only [RwLock.run, pollStep] at hst
      split at hst <;> cases hst <;> exact h
    | fast t | slow token t => exact h.attempt hst
    | register | cancel token =>
      cases hst
      exact h

/-- The word counts the read guards, or there is one write guard and no other. -/
theorem Excl.step {a : Act ι} (h : Excl s) (hst : step a s = some s') : Excl s' := by
  cases a with
  | poll j kind | dropFuture j | tryRead j =>
    simp only [RwLock.step] at hst
    split at hst <;> cases hst
    exact h
  | tryWrite j addr =>
    simp only [RwLock.step] at hst
    split at hst
    · exact h.attempt hst
    · cases hst
  | dropReadGuard j addr =>
    simp only [RwLock.step] at hst
    split at hst
    case isFalse => cases hst
    case isTrue hmem =>
      have hcard := Finset.card_erase_add_one hmem.2
      have hlt := card_lt s.readers
      obtain ⟨hstate, hnone⟩ : s.state = s.readers.card ∧ s.writers = ∅ := by
        rcases h with h | ⟨-, -, hempty⟩
        · exact h
        · rw [hempty] at hmem
          exact absurd hmem.2 (Finset.notMem_empty addr)
      have hwrap : isizeWrap (s.state - 1) = s.state - 1 := isizeWrap_eq (by omega) (by omega)
      rw [hwrap] at hst
      have hleft : s.state - 1 = (s.readers.erase addr).card := by omega
      split at hst <;> cases hst <;> exact .inl ⟨hleft, hnone⟩
  | dropWriteGuard j addr =>
    simp only [RwLock.step] at hst
    split at hst
    case isFalse => cases hst
    case isTrue hmem =>
      cases hst
      obtain ⟨hone, hempty⟩ : s.writers.card = 1 ∧ s.readers = ∅ := by
        rcases h with ⟨-, hnone⟩ | ⟨-, h⟩
        · rw [hnone] at hmem
          exact absurd hmem.2 (Finset.notMem_empty addr)
        · exact h
      have hleft : s.writers.erase addr = ∅ := by
        rw [← Finset.card_eq_zero, Finset.card_erase_of_mem hmem.2, hone]
      exact .inl ⟨by simp [St.set, hempty], hleft⟩
  | run j spurious addr => exact h.run hst

end

/-! ## The bell -/

def PollPc.phase : PollPc → Bell.Phase
  | .check | .fast _ | .register => .asking
  | .slow _ _ => .registered
  | .cancel _ => .away

def Activity.phase : Activity → Bell.Phase
  | .idle | .trying _ => .away
  | .polling _ pc => pc.phase
  | .pending _ => .waiting
  | .waking => .ringing

def Task.bell (t : Task) : Bell.Task := ⟨t.activity.phase, t.woken⟩

/-- The door is open when the lock is free. -/
def bell (s : St ι) : Bell.St ι := ⟨s.state = 0, s.wait.owners, fun j => (s.task j).bell⟩

section

variable [DecidableEq ι] {s s' : St ι} {j : ι} {spurious : Bool} {addr : Addr}

theorem bell_update (s : St ι) (j : ι) (t : Task) :
    bell { s with task := Function.update s.task j t } = (bell s).set j t.bell := by
  simp only [bell, Bell.St.set]
  congr 1
  exact Function.comp_update Task.bell s.task j t

theorem bell_set (s : St ι) (j : ι) (activity : Activity) :
    bell (s.set j activity) = (bell s).setPhase j activity.phase :=
  bell_update s j _

theorem bell_set_same {activity : Activity} (h : activity.phase = (s.task j).activity.phase) :
    bell (s.set j activity) = bell s := by
  rw [bell_set, Bell.St.setPhase, Bell.St.set, h]
  exact congrArg (Bell.St.mk _ _) (Function.update_eq_self j _)

theorem acquire_bell (hex : Excl s) {kind : Kind} {t : Try} {word : Int} {next : Activity}
    (htaken : attempt kind spurious t s.state = .taken word)
    (hring : (s.task j).activity.phase ≠ .ringing) (hnext : next.phase = .away)
    (hst : s.acquire j kind word addr next = some s') : Bell.Step (bell s) (bell s') := by
  have hword : word ≠ 0 := by
    cases kind with
    | read =>
      obtain ⟨hpos, rfl⟩ := hex.taken_read htaken
      omega
    | write =>
      obtain ⟨-, rfl⟩ := taken_write htaken
      decide
  have hgate : bell s' = { (bell s).setPhase j .away with isOpen := word = 0 } := by
    rw [← hnext, ← bell_set]
    unfold St.acquire at hst
    split at hst
    · cases hst
    · cases kind <;> cases hst <;> rfl
  rw [hgate]
  exact .turn j hring (.inl rfl) fun hopen => absurd (of_decide_eq_true hopen) hword

/-- An attempt that goes on changes nothing; one that fails finds the lock taken. -/
theorem attempt_bell (hex : Excl s) {kind : Kind} {t : Try} {goto : Try → Activity}
    {taken failed : Activity} (hst : s.attempt j kind spurious addr t goto taken failed = some s')
    (hgoto : ∀ t, (goto t).phase = (s.task j).activity.phase)
    (hring : (s.task j).activity.phase ≠ .ringing) (htaken : taken.phase = .away)
    (hfailed : failed.phase = (s.task j).activity.phase ∨
      (s.task j).activity.phase = .registered ∧ failed.phase = .waiting) :
    Bell.Step (bell s) (bell s') := by
  unfold St.attempt at hst
  split at hst
  · cases hst
    rw [bell_set_same (hgoto _)]
    exact .shut id
  · next hat => exact acquire_bell hex hat hring htaken hst
  · next hat =>
    cases hst
    rcases hfailed with hsame | ⟨hregistered, hwaiting⟩
    · rw [bell_set_same hsame]
      exact .shut id
    · rw [bell_set, hwaiting]
      exact .sleep j hregistered (decide_eq_false (failed_ne_zero hat))

theorem waking_bell (hact : (s.task j).activity = .waking)
    (hst : run j spurious addr s .waking = some s') : Bell.Step (bell s) (bell s') := by
  cases hst
  have hidle : (bell s).setPhase j .away = bell (s.set j .idle) := (bell_set s j .idle).symm
  have hgate : bell { s.set j .idle with
      wait := s.wait.wakeAll.2
      task := WaitQueue.invoke s.wait.wakeAll.1 (fun t => { t with woken := true })
        (s.set j .idle).task } = ((bell s).setPhase j .away).wakeOwners := by
    rw [hidle]
    simp only [bell, Bell.St.wakeOwners, WaitQueue.invoke, WaitQueue.mem_wakeAll]
    congr 1
    funext i
    exact apply_ite Task.bell _ _ _
  exact hgate ▸ .ring j (congrArg Activity.phase hact)

theorem poll_bell (hex : Excl s) {kind : Kind} {pc : PollPc}
    (hact : (s.task j).activity = .polling kind pc)
    (hst : pollStep j kind spurious addr s pc = some s') : Bell.Step (bell s) (bell s') := by
  have hphase : (s.task j).activity.phase = pc.phase := congrArg Activity.phase hact
  have hring : (s.task j).activity.phase ≠ .ringing := by
    rw [hphase]
    cases pc <;> simp [PollPc.phase]
  cases pc with
  | check =>
    have hstay {pc' : PollPc} (h : pc'.phase = .asking) :
        Bell.Step (bell s) (bell (s.set j (.polling kind pc'))) := by
      have hsame : bell (s.set j (.polling kind pc')) = bell s :=
        bell_set_same (h.trans hphase.symm)
      rw [hsame]
      exact .shut id
    simp only [pollStep] at hst
    split at hst <;> cases hst <;> exact hstay rfl
  | fast t =>
    exact attempt_bell hex hst (fun _ => hphase.symm) hring rfl (.inl hphase.symm)
  | register =>
    cases hst
    have hgate : bell { s.set j (.polling kind (.slow (s.wait.register j).1.number .load)) with
        wait := (s.wait.register j).2 } =
        { (bell s).setPhase j .registered with owners := j ::ₘ (bell s).owners } :=
      congrArg₂ (fun (b : Bell.St ι) owners => { b with owners }) (bell_set s j _)
        (WaitQueue.owners_register s.wait j)
    exact hgate ▸ .register j hphase
  | slow token t =>
    exact attempt_bell hex hst (fun _ => hphase.symm) hring rfl (.inr ⟨hphase, rfl⟩)
  | cancel token =>
    cases hst
    have hgate : bell { s.set j .idle with wait := s.wait.cancel ⟨token, j⟩ } =
        { (bell s).setPhase j .away with owners := (s.wait.cancel ⟨token, j⟩).owners } :=
      congrArg (fun b : Bell.St ι => { b with owners := (s.wait.cancel ⟨token, j⟩).owners })
        (bell_set s j .idle)
    rw [hgate]
    exact .retract j hring (.inl rfl) fun i hne hi => WaitQueue.mem_owners_cancel hne hi

theorem run_bell (hex : Excl s) (hst : run j spurious addr s (s.task j).activity = some s') :
    Bell.Step (bell s) (bell s') := by
  cases hact : (s.task j).activity with
  | idle | pending _ =>
    rw [hact] at hst
    cases hst
  | waking => exact waking_bell hact (hact ▸ hst)
  | trying t =>
    have haway : (s.task j).activity.phase = .away := congrArg Activity.phase hact
    rw [hact] at hst
    exact attempt_bell hex hst (fun _ => haway.symm) (by simp [haway]) rfl (.inl haway.symm)
  | polling kind pc => exact poll_bell hex hact (hact ▸ hst)

theorem Activity.phase_of_isIdle {a : Activity} (h : a.isIdle) : a.phase = .away := by
  cases a with
  | idle => rfl
  | _ => cases h

theorem step_bell (hex : Excl s) {a : Act ι} (hst : step a s = some s') :
    Bell.Step (bell s) (bell s') := by
  cases a with
  | poll j kind =>
    simp only [step] at hst
    split at hst
    case isFalse => cases hst
    case isTrue hpoll =>
      cases hst
      rw [bell_update]
      have hring : (s.task j).activity.phase ≠ .ringing := by
        intro hring
        cases hact : (s.task j).activity with
        | waking => simp [hact, Activity.pollable] at hpoll
        | polling kind pc => cases pc <;> simp [hact, Activity.phase, PollPc.phase] at hring
        | _ => simp [hact, Activity.phase] at hring
      have hstart : (Task.mk (.polling kind kind.start) false).bell.phase = .asking := by
        cases kind <;> rfl
      exact .turn j hring (.inr hstart) id
  | dropFuture j =>
    simp only [step] at hst
    split at hst
    case isFalse => cases hst
    case isTrue hpending =>
      cases hst
      rw [bell_set]
      refine .turn j ?_ (.inl rfl) id
      intro hring
      cases hact : (s.task j).activity with
      | pending kind => simp [bell, Task.bell, hact, Activity.phase] at hring
      | _ => simp [hact, Activity.isPending] at hpending
  | tryRead j =>
    simp only [step] at hst
    split at hst
    case isFalse => cases hst
    case isTrue hidle =>
      cases hst
      have hsame : bell (s.set j (.trying .load)) = bell s :=
        bell_set_same (Activity.phase_of_isIdle hidle).symm
      rw [hsame]
      exact .shut id
  | tryWrite j addr =>
    simp only [step] at hst
    split at hst
    case isFalse => cases hst
    case isTrue hidle =>
      have haway := Activity.phase_of_isIdle hidle
      exact attempt_bell hex hst (fun _ => haway.symm) (by simp [haway]) rfl (.inl haway.symm)
  | dropReadGuard j addr =>
    simp only [step] at hst
    split at hst
    case isFalse => cases hst
    case isTrue hidle =>
      have haway : ((bell s).task j).phase = .away := Activity.phase_of_isIdle hidle.1
      split at hst
      case isTrue hlast =>
        cases hst
        have hgate : bell ({ s with
            state := isizeWrap (s.state - 1), readers := s.readers.erase addr }.set j .waking) =
            { (bell s).setPhase j .ringing with isOpen := true } := by
          rw [bell_set, hlast]
          rfl
        exact hgate ▸ .unlock j haway
      case isFalse hmore =>
        cases hst
        -- the word was not 1, so it is not 0 now
        refine .shut fun hopen => ?_
        have hstate : s.state = s.readers.card := by
          rcases hex with h | ⟨-, -, hempty⟩
          · exact h.1
          · rw [hempty] at hidle
            exact absurd hidle.2 (Finset.notMem_empty addr)
        have hlt := card_lt s.readers
        have hpos := Finset.card_pos.mpr ⟨addr, hidle.2⟩
        have hzero : isizeWrap (s.state - 1) = 0 := of_decide_eq_true hopen
        rw [isizeWrap_eq (by omega) (by omega)] at hzero
        omega
  | dropWriteGuard j addr =>
    simp only [step] at hst
    split at hst
    case isFalse => cases hst
    case isTrue hidle =>
      cases hst
      have hgate : bell { s.set j .waking with state := 0, writers := s.writers.erase addr } =
          { (bell s).setPhase j .ringing with isOpen := true } :=
        congrArg (fun b : Bell.St ι => { b with isOpen := true }) (bell_set s j .waking)
      exact hgate ▸ .unlock j (Activity.phase_of_isIdle hidle.1)
  | run j spurious addr => exact run_bell hex hst

end

/-! ## The result -/

def Task.busy (t : Task) : Bool :=
  match t.activity with
  | .idle | .pending _ => false
  | _ => true

/-- When the lock is free and nothing is in progress, every waiting task has been woken since
its latest poll began. -/
def AllWoken (s : St ι) : Prop :=
  (∀ j, (s.task j).busy = false) → s.state = 0 →
    ∀ j, (s.task j).activity.isPending → (s.task j).woken

theorem rwlock_inv [DecidableEq ι] {tr : List (Act ι)} {s : St ι}
    (h : Run (· = St.new) step Free tr s) : Excl s ∧ Bell.Inv (bell s) := by
  refine h.invariant (I := fun _ s => Excl s ∧ Bell.Inv (bell s)) ?_ ?_
  · rintro s rfl
    refine ⟨.inl ⟨rfl, rfl⟩, fun j hj => ?_, fun _ j hj => ?_⟩
    · rcases hj.1 with hj | hj <;> cases hj
    · cases hj.1
  · intro tr s a s' hinv _ hst
    exact ⟨hinv.1.step hst, hinv.2.step (step_bell hinv.1 hst)⟩

/-- In every run the word says which guards are alive, and no waiter is stranded. -/
theorem rwlock_sound [DecidableEq ι] (tr : List (Act ι)) (s : St ι)
    (h : Run (· = St.new) step Free tr s) : Excl s ∧ AllWoken s := by
  obtain ⟨hex, hbell⟩ := rwlock_inv h
  refine ⟨hex, fun hquiet hfree j hj => ?_⟩
  refine hbell.all_awake (fun k hk => ?_) (decide_eq_true hfree) (j := j) ?_
  · have hidle := hquiet k
    cases hact : (s.task k).activity with
    | waking | polling kind pc => simp [Task.busy, hact] at hidle
    | _ => simp [bell, Task.bell, hact, Activity.phase] at hk
  · cases hact : (s.task j).activity with
    | pending kind => simp [bell, Task.bell, hact, Activity.phase]
    | _ => simp [hact, Activity.isPending] at hj

/-- Task 0 has the write lock, tasks 1 and 2 wait for a read and a write lock, and task 0
drops its guard. -/
def writerLeaves (addr : Addr) : List (Act (Fin 3)) :=
  [[.tryWrite 0 addr],
    [.poll 1 .read], .replicate 3 (.run 1 false addr),
    [.poll 2 .write], .replicate 3 (.run 2 false addr),
    [.dropWriteGuard 0 addr, .run 0 false addr]].flatten

theorem rwlock_sound_writerLeaves :
    ∃ (tr : List (Act (Fin 3))) (s : St (Fin 3)), Run (· = St.new) step Free tr s ∧ s.state = 0 ∧
      (s.task 1).activity.isPending ∧ (s.task 2).activity.isPending ∧ Excl s ∧
      (s.task 1).woken ∧ (s.task 2).woken := by
  obtain ⟨s, hrun, hfree, hreader, hwriter, hquiet⟩ : ∃ s, Run (· = St.new) step Free
      (writerLeaves ⟨0, Nat.two_pow_pos 58⟩).reverse s ∧ s.state = 0 ∧
      (s.task 1).activity.isPending = true ∧ (s.task 2).activity.isPending = true ∧
      (∀ j, (s.task j).busy = false) :=
    Run.exists_of_exec (writerLeaves ⟨0, Nat.two_pow_pos 58⟩) St.new rfl (by decide +kernel)
  obtain ⟨hex, hwoken⟩ := rwlock_sound _ s hrun
  exact ⟨_, s, hrun, hfree, hreader, hwriter, hex, hwoken hquiet hfree 1 hreader,
    hwoken hquiet hfree 2 hwriter⟩

end Dtact.RwLock
