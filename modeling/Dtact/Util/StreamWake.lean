import Dtact.Util.Stream

/-!
# The wakers of the duplex pipe

A read that finds neither bytes nor the end of the stream registers its waker and tries once more;
so does a write that finds no room. Whoever makes bytes or room, or is dropped, publishes that first
and then invokes the waker of the other end. `register` and `take_and_wake` are one step each.

Result: `end_not_asleep`. When no call is in progress in a direction, an end whose last poll
returned `Pending` and that could go on has had its waker invoked since that poll began.
-/

namespace Dtact.StreamWake

open Transition Dtact.Stream

variable {W : Type}

/-- What an end is doing with one of its directions. It is `waking` before the `take_and_wake`
that ends a poll, and `pending` after a poll that has returned `Pending`. -/
inductive Phase (W : Type)
  | idle
  | running (waker : W)
  | register (waker : W)
  | waking
  | pending (waker : W)
deriving DecidableEq

def Phase.busy : Phase W → Bool
  | .running _ | .register _ | .waking => true
  | .idle | .pending _ => false

/-- What `drop` does next: it wakes the reader of `tx`, stores `reader_dropped` of `rx` and wakes
its writer. -/
inductive DropPc
  | none
  | wakeTx
  | storeRx
  | wakeRx
  | done
deriving DecidableEq

def DropPc.busy : DropPc → Bool
  | .wakeTx | .storeRx | .wakeRx => true
  | .none | .done => false

/-- `readWaker e` is `rx.read_waker` and `writeWaker e` is `tx.write_waker` of the end `e`: the
slots in which it registers. -/
structure St (W : Type) where
  base : Stream.St
  readWaker : End → Option W
  writeWaker : End → Option W
  reader : End → Phase W
  writer : End → Phase W
  drop : End → DropPc

def St.new (base : Stream.St) : St W :=
  ⟨base, fun _ => none, fun _ => none, fun _ => .idle, fun _ => .idle, fun _ => .none⟩

inductive Act (W : Type)
  | read (e : End) (waker : W) (len : Nat)
  | write (e : End) (waker : W) (buf : List UInt8)
  | runRead (e : End)
  | runWrite (e : End)
  | drop (e : End)
  | runDrop (e : End)

/-- After an operation of `poll_read`: the second try begins with `register`, and bytes that were
taken are followed by `take_and_wake`. -/
def afterRead (waker : W) : ReadPc → Next ReadPc ReadRet → Phase W
  | _, .more (.loadHead true) => .register waker
  | _, .more _ => .running waker
  | _, .ret .pending => .pending waker
  | .storeHead _ _ _, .ret (.ok _) => .waking
  | _, .ret (.ok _) => .idle

/-- After an operation of `poll_write`. -/
def afterWrite (waker : W) : Next WritePc WriteRet → Phase W
  | .more (.checkDropped true) => .register waker
  | .more _ => .running waker
  | .ret .pending => .pending waker
  | .ret (.ok _) => .waking
  | .ret .brokenPipe => .idle

def St.runRead (s : St W) (e : End) : Option (St W) :=
  match s.reader e with
  | .idle | .pending _ => none
  | .register waker =>
    some { s with
      readWaker := Function.update s.readWaker e (some waker)
      reader := Function.update s.reader e (.running waker) }
  | .waking =>
    some { s with
      writeWaker := Function.update s.writeWaker e.other none
      reader := Function.update s.reader e .idle }
  | .running waker =>
    match s.base.read e with
    | none => none
    | some (len, pc) =>
      (Stream.step (.runRead e) s.base).map fun base =>
        { s with
          base
          reader := Function.update s.reader e
            (afterRead waker pc (readStep (s.base.pipe e.other) len pc).2) }

def St.runWrite (s : St W) (e : End) : Option (St W) :=
  match s.writer e with
  | .idle | .pending _ => none
  | .register waker =>
    some { s with
      writeWaker := Function.update s.writeWaker e (some waker)
      writer := Function.update s.writer e (.running waker) }
  | .waking =>
    some { s with
      readWaker := Function.update s.readWaker e.other none
      writer := Function.update s.writer e .idle }
  | .running waker =>
    match s.base.write e with
    | none => none
    | some (buf, pc) =>
      (Stream.step (.runWrite e) s.base).map fun base =>
        { s with
          base
          writer := Function.update s.writer e
            (afterWrite waker (writeStep (s.base.pipe e) buf pc).2) }

def St.runDrop (s : St W) (e : End) : Option (St W) :=
  match s.drop e with
  | .none | .done => none
  | .wakeTx =>
    some { s with
      readWaker := Function.update s.readWaker e.other none
      drop := Function.update s.drop e .storeRx }
  | .storeRx =>
    (Stream.step (.dropRx e) s.base).map fun base =>
      { s with base, drop := Function.update s.drop e .wakeRx }
  | .wakeRx =>
    some { s with
      writeWaker := Function.update s.writeWaker e.other none
      drop := Function.update s.drop e .done }

/-- A poll with an empty buffer returns at once. `drop` needs the end for itself. -/
def step : Act W → St W → Option (St W)
  | .read e waker len, s =>
    if (s.reader e).busy then none
    else
      (Stream.step (.read e len) s.base).map fun base =>
        { s with
          base
          reader := Function.update s.reader e (if len = 0 then .idle else .running waker) }
  | .write e waker buf, s =>
    if (s.writer e).busy then none
    else
      (Stream.step (.write e buf) s.base).map fun base =>
        { s with
          base
          writer := Function.update s.writer e (if buf = [] then .idle else .running waker) }
  | .runRead e, s => s.runRead e
  | .runWrite e, s => s.runWrite e
  | .drop e, s =>
    if (s.reader e).busy ∨ (s.writer e).busy then none
    else
      (Stream.step (.dropTx e) s.base).map fun base =>
        { s with base, drop := Function.update s.drop e .wakeTx }
  | .runDrop e, s => s.runDrop e

/-! ## The property -/

/-- The latest poll of an end: its waker, and whether that was invoked since the poll began. -/
structure Hist (W : Type) where
  readPoll : End → Option (W × Bool)
  writePoll : End → Option (W × Bool)

def Hist.init : Hist W := ⟨fun _ => none, fun _ => none⟩

section

variable [DecidableEq W]

/-- `take_and_wake` invokes the waker that is in the slot. -/
def invoke (slot : Option W) (poll : Option (W × Bool)) : Option (W × Bool) :=
  poll.map fun p => (p.1, p.2 || decide (slot = some p.1))

def Hist.wakeReader (h : Hist W) (s : St W) (e : End) : Hist W :=
  { h with readPoll := Function.update h.readPoll e (invoke (s.readWaker e) (h.readPoll e)) }

def Hist.wakeWriter (h : Hist W) (s : St W) (e : End) : Hist W :=
  { h with writePoll := Function.update h.writePoll e (invoke (s.writeWaker e) (h.writePoll e)) }

def upd (a : Act W) (s : St W) (h : Hist W) : Hist W :=
  match a with
  | .read e waker _ => { h with readPoll := Function.update h.readPoll e (some (waker, false)) }
  | .write e waker _ => { h with writePoll := Function.update h.writePoll e (some (waker, false)) }
  | .runRead e => if s.reader e = .waking then h.wakeWriter s e.other else h
  | .runWrite e => if s.writer e = .waking then h.wakeReader s e.other else h
  | .drop _ => h
  | .runDrop e =>
    match s.drop e with
    | .wakeTx => h.wakeReader s e.other
    | .wakeRx => h.wakeWriter s e.other
    | .none | .storeRx | .done => h

abbrev WakeRun (capacity : Nat) : List (Act W) → St W × Hist W → Prop :=
  Run (initHist (fun s => ∃ uninit base, pair capacity uninit = some base ∧ s = .new base) .init)
    (withHist step upd) Free

end

/-- `SpscQueue::len` of the half pipe that the end writes to. -/
def St.len (s : St W) (e : End) : Nat :=
  wrappingSub (s.base.pipe e).queue.tail (s.base.pipe e).queue.head

/-- No call is in progress in the direction in which `e` writes, and no end is being dropped. -/
def St.Quiet (s : St W) (e : End) : Prop :=
  (s.writer e).busy = false ∧ (s.reader e.other).busy = false ∧ ∀ e', (s.drop e').busy = false

/-- An end that could go on, in the direction in which `e` writes, has been told. -/
structure NotAsleep (s : St W) (h : Hist W) (e : End) : Prop where
  reader : ∀ waker, s.reader e.other = .pending waker →
    0 < s.len e ∨ (s.base.pipe e).writerDropped = true → h.readPoll e.other = some (waker, true)
  writer : ∀ waker, s.writer e = .pending waker →
    s.len e < (s.base.pipe e).queue.capacity ∨ (s.base.pipe e).readerDropped = true →
    h.writePoll e = some (waker, true)

/-! ## Register and try once more -/

/-- The waker of the latest poll has been invoked, or it is in its slot and `owed` holds: whoever
has published something since is about to take it. -/
def Alert (waker : W) (poll : Option (W × Bool)) (slot : Option W) (owed : Prop) : Prop :=
  poll = some (waker, true) ∨ slot = some waker ∧ owed

section

variable {waker : W} {poll : Option (W × Bool)} {slot : Option W} {owed owed' : Prop}

theorem Alert.mono (halert : Alert waker poll slot owed) (himp : owed → owed') :
    Alert waker poll slot owed' :=
  halert.imp_right fun h => ⟨h.1, himp h.2⟩

theorem Alert.take [DecidableEq W] {invoked : Bool} (hpoll : poll = some (waker, invoked))
    (halert : Alert waker poll slot owed) : invoke slot poll = some (waker, true) := by
  subst hpoll
  rcases halert with hinvoked | ⟨hslot, -⟩
  · cases hinvoked
    simp [invoke]
  · simp [invoke, hslot]

end

/-- What holds of a read. `queued` says that bytes were queued only by a write that is about to
take the waker, `dropped` the same of the flag. -/
def ReaderOk (queued dropped : Prop) (poll : Option (W × Bool)) (slot : Option W) :
    Phase W → Option (Nat × ReadPc) → Prop
  | .idle, call | .waking, call => call = none
  | .pending waker, call =>
    call = none ∧ (∃ invoked, poll = some (waker, invoked)) ∧
      Alert waker poll slot (queued ∧ dropped)
  | .register waker, call =>
    (∃ len, call = some (len, .loadHead true)) ∧ ∃ invoked, poll = some (waker, invoked)
  | .running waker, call =>
    (∃ invoked, poll = some (waker, invoked)) ∧ ∃ len pc, call = some (len, pc) ∧
      match pc with
      | .loadHead again | .loadTail again _ => again = true → Alert waker poll slot True
      | .checkDropped again | .emptyHead again | .emptyTail again _ =>
        again = true → Alert waker poll slot queued
      | .copy _ _ | .storeHead _ _ _ => True

def WriterOk (free dropped : Prop) (poll : Option (W × Bool)) (slot : Option W) :
    Phase W → Option (List UInt8 × WritePc) → Prop
  | .idle, call | .waking, call => call = none
  | .pending waker, call =>
    call = none ∧ (∃ invoked, poll = some (waker, invoked)) ∧
      Alert waker poll slot (free ∧ dropped)
  | .register waker, call =>
    (∃ buf, buf ≠ [] ∧ call = some (buf, .checkDropped true)) ∧
      ∃ invoked, poll = some (waker, invoked)
  | .running waker, call =>
    (∃ invoked, poll = some (waker, invoked)) ∧ ∃ buf pc, buf ≠ [] ∧ call = some (buf, pc) ∧
      match pc with
      | .checkDropped again => again = true → Alert waker poll slot True
      | .loadTail again | .loadHead again _ => again = true → Alert waker poll slot dropped
      | .copy _ _ | .storeTail _ _ => True

section

variable {queued queued' dropped dropped' : Prop} {poll : Option (W × Bool)} {slot : Option W}
  {phase : Phase W}

theorem ReaderOk.mono {call : Option (Nat × ReadPc)} (hqueued : queued → queued')
    (hdropped : dropped → dropped') (hok : ReaderOk queued dropped poll slot phase call) :
    ReaderOk queued' dropped' poll slot phase call := by
  cases phase with
  | idle | waking | register _ => exact hok
  | pending waker =>
    exact ⟨hok.1, hok.2.1, hok.2.2.mono fun h => ⟨hqueued h.1, hdropped h.2⟩⟩
  | running waker =>
    obtain ⟨hpoll, len, pc, hcall, hpc⟩ := hok
    refine ⟨hpoll, len, pc, hcall, ?_⟩
    cases pc with
    | loadHead | loadTail | copy | storeHead => exact hpc
    | checkDropped | emptyHead | emptyTail => exact fun hagain => (hpc hagain).mono hqueued

theorem WriterOk.mono {call : Option (List UInt8 × WritePc)} (hfree : queued → queued')
    (hdropped : dropped → dropped') (hok : WriterOk queued dropped poll slot phase call) :
    WriterOk queued' dropped' poll slot phase call := by
  cases phase with
  | idle | waking | register _ => exact hok
  | pending waker =>
    exact ⟨hok.1, hok.2.1, hok.2.2.mono fun h => ⟨hfree h.1, hdropped h.2⟩⟩
  | running waker =>
    obtain ⟨hpoll, buf, pc, hbuf, hcall, hpc⟩ := hok
    refine ⟨hpoll, buf, pc, hbuf, hcall, ?_⟩
    cases pc with
    | checkDropped | copy | storeTail => exact hpc
    | loadTail | loadHead => exact fun hagain => (hpc hagain).mono hdropped

variable [DecidableEq W]

theorem exists_invoke {waker : W} (hpoll : ∃ invoked, poll = some (waker, invoked)) :
    ∃ invoked, invoke slot poll = some (waker, invoked) := by
  obtain ⟨invoked, rfl⟩ := hpoll
  exact ⟨_, rfl⟩

/-- Somebody takes the waker: nothing is owed to the read any more. -/
theorem ReaderOk.take {call : Option (Nat × ReadPc)}
    (hok : ReaderOk queued dropped poll slot phase call) :
    ReaderOk queued' dropped' (invoke slot poll) none phase call := by
  cases phase with
  | idle | waking => exact hok
  | register waker => exact ⟨hok.1, exists_invoke hok.2⟩
  | pending waker =>
    obtain ⟨hcall, ⟨invoked, hpoll⟩, halert⟩ := hok
    exact ⟨hcall, exists_invoke ⟨invoked, hpoll⟩, .inl (halert.take hpoll)⟩
  | running waker =>
    obtain ⟨⟨invoked, hpoll⟩, len, pc, hcall, hpc⟩ := hok
    refine ⟨exists_invoke ⟨invoked, hpoll⟩, len, pc, hcall, ?_⟩
    cases pc with
    | copy | storeHead => trivial
    | loadHead | loadTail | checkDropped | emptyHead | emptyTail =>
      exact fun hagain => .inl ((hpc hagain).take hpoll)

theorem WriterOk.take {call : Option (List UInt8 × WritePc)}
    (hok : WriterOk queued dropped poll slot phase call) :
    WriterOk queued' dropped' (invoke slot poll) none phase call := by
  cases phase with
  | idle | waking => exact hok
  | register waker => exact ⟨hok.1, exists_invoke hok.2⟩
  | pending waker =>
    obtain ⟨hcall, ⟨invoked, hpoll⟩, halert⟩ := hok
    exact ⟨hcall, exists_invoke ⟨invoked, hpoll⟩, .inl (halert.take hpoll)⟩
  | running waker =>
    obtain ⟨⟨invoked, hpoll⟩, buf, pc, hbuf, hcall, hpc⟩ := hok
    refine ⟨exists_invoke ⟨invoked, hpoll⟩, buf, pc, hbuf, hcall, ?_⟩
    cases pc with
    | copy | storeTail => trivial
    | checkDropped | loadTail | loadHead => exact fun hagain => .inl ((hpc hagain).take hpoll)

end

/-! ## The invariant -/

/-- Bytes are queued for the other end only by a write that is about to take its waker. -/
def St.QueuedOwed (s : St W) (e : End) : Prop := 0 < s.len e → s.writer e = .waking

def St.DroppedOwed (s : St W) (e : End) : Prop :=
  (s.base.pipe e).writerDropped = true → s.drop e = .wakeTx

/-- There is room for `e` only by a read that is about to take its waker. -/
def St.FreeOwed (s : St W) (e : End) : Prop :=
  s.len e < (s.base.pipe e).queue.capacity → s.reader e.other = .waking

def St.BrokenOwed (s : St W) (e : End) : Prop :=
  (s.base.pipe e).readerDropped = true → s.drop e.other = .wakeRx

def ReadDir (s : St W) (h : Hist W) (e : End) : Prop :=
  ReaderOk (s.QueuedOwed e) (s.DroppedOwed e) (h.readPoll e.other) (s.readWaker e.other)
    (s.reader e.other) (s.base.read e.other)

def WriteDir (s : St W) (h : Hist W) (e : End) : Prop :=
  WriterOk (s.FreeOwed e) (s.BrokenOwed e) (h.writePoll e) (s.writeWaker e) (s.writer e)
    (s.base.write e)

structure Inv (s : St W) (h : Hist W) : Prop where
  base : ∃ c hist, ∀ e, DirOk c s.base hist e
  reader : ∀ e, ReadDir s h e
  writer : ∀ e, WriteDir s h e
  live : ∀ e, (s.writer e).busy = true → s.base.life e = .live
  notDropped : ∀ e, s.base.life e = .live → s.drop e = .none

theorem Inv.notAsleep {s : St W} {h : Hist W} (hinv : Inv s h) {e : End} (hquiet : s.Quiet e) :
    NotAsleep s h e := by
  obtain ⟨hwriter, hreader, hdrop⟩ := hquiet
  refine ⟨fun waker hpending hcould => ?_, fun waker hpending hcould => ?_⟩
  · have hok := hinv.reader e
    rw [ReadDir, hpending] at hok
    rcases hok.2.2 with hinvoked | ⟨-, hqueued, hdropped⟩
    · exact hinvoked
    · rcases hcould with hlen | hflag
      · rw [hqueued hlen] at hwriter
        cases hwriter
      · have hnext := hdrop e
        rw [hdropped hflag] at hnext
        cases hnext
  · have hok := hinv.writer e
    rw [WriteDir, hpending] at hok
    rcases hok.2.2 with hinvoked | ⟨-, hfree, hbroken⟩
    · exact hinvoked
    · rcases hcould with hlen | hflag
      · rw [hfree hlen] at hreader
        cases hreader
      · have hnext := hdrop e.other
        rw [hbroken hflag] at hnext
        cases hnext

/-! ### The operations of a poll -/

section

variable {capacity : Nat} {p : HalfPipe} {contents : List UInt8} {hist : Stream.Hist} {waker : W}
  {poll : Option (W × Bool)} {slot : Option W}

theorem len_eq {write : Option (List UInt8 × WritePc)} {read : Option (Nat × ReadPc)}
    (hhalf : HalfInv capacity p write read contents hist) :
    wrappingSub p.queue.tail p.queue.head = contents.length := by
  rw [hhalf.ring.head]
  exact hhalf.ring.avail

/-- An operation of a read. `wakes` and `drops` say that the writer, or its `drop`, is about to
take the waker; a writer that has been dropped is not. -/
theorem ReaderOk.readStep {write : Option (List UInt8 × WritePc)} {len : Nat} {pc : ReadPc}
    {wakes drops : Prop} (hhalf : HalfInv capacity p write (some (len, pc)) contents hist)
    (hlive : wakes → p.writerDropped = false)
    (hok : ReaderOk (0 < wrappingSub p.queue.tail p.queue.head → wakes)
      (p.writerDropped = true → drops) poll slot (.running waker) (some (len, pc))) :
    ReaderOk
      (0 < wrappingSub (Stream.readStep p len pc).1.queue.tail
        (Stream.readStep p len pc).1.queue.head → wakes)
      ((Stream.readStep p len pc).1.writerDropped = true → drops) poll slot
      (afterRead waker pc (Stream.readStep p len pc).2)
      ((Stream.readStep p len pc).2.call len) := by
  obtain ⟨hpoll, len', pc', hcall, hpc⟩ := hok
  cases hcall
  obtain ⟨hlen, hread⟩ := hhalf.readOk _ rfl
  have hqueue := len_eq hhalf
  cases pc with
  | loadHead again => exact ⟨hpoll, len, _, rfl, hpc⟩
  | loadTail again head =>
    obtain rfl : head = p.queue.head := hread.trans hhalf.ring.head.symm
    simp only [Stream.readStep]
    split
    case isTrue hzero =>
      -- The queue is empty at this moment.
      refine ⟨hpoll, len, _, rfl, fun hagain => (hpc hagain).mono fun _ hpos => ?_⟩
      have hpos : 0 < wrappingSub p.queue.tail p.queue.head := hpos
      simp only [SpscQueue.toPop] at hzero
      omega
    case isFalse => exact ⟨hpoll, len, _, rfl, trivial⟩
  | copy head n => exact ⟨hpoll, len, _, rfl, trivial⟩
  | storeHead head n bytes => exact rfl
  | checkDropped again =>
    simp only [Stream.readStep]
    split
    case isTrue => exact ⟨hpoll, len, _, rfl, hpc⟩
    case isFalse hflag =>
      cases again with
      | false => exact ⟨⟨len, rfl⟩, hpoll⟩
      | true =>
        exact ⟨rfl, hpoll, (hpc rfl).mono fun hqueued => ⟨hqueued, fun h => absurd h hflag⟩⟩
  | emptyHead again => exact ⟨hpoll, len, _, rfl, hpc⟩
  | emptyTail again head =>
    obtain ⟨hflag, hhead⟩ := hread
    simp only [Stream.readStep]
    split
    case isTrue => exact rfl
    case isFalse hne =>
      cases again with
      | false => exact ⟨⟨len, rfl⟩, hpoll⟩
      | true =>
        -- There are bytes, and the writer is gone: it has taken the waker after its last write.
        refine ⟨rfl, hpoll, (hpc rfl).mono fun hqueued => (hne ?_).elim⟩
        have hzero : contents.length = 0 := by
          by_contra hpos
          have hwakes := hqueued (by omega)
          rw [hlive hwakes] at hflag
          cases hflag
        rw [hhead, hhalf.ring.tail, hzero, Nat.add_zero]

/-- An operation of a read leaves the half pipe as it is, or it makes room and is about to take
the waker of the writer. -/
theorem readStep_pipe (p : HalfPipe) (len : Nat) (pc : ReadPc) (waker : W) :
    (readStep p len pc).1 = p ∨ afterRead waker pc (readStep p len pc).2 = .waking := by
  cases pc with
  | loadHead | copy | emptyHead => exact .inl rfl
  | loadTail | checkDropped | emptyTail =>
    simp only [readStep]
    split <;> exact .inl rfl
  | storeHead => exact .inr rfl

theorem WriterOk.writeStep {read : Option (Nat × ReadPc)} {buf : List UInt8} {pc : WritePc}
    {wakes drops : Prop} (hhalf : HalfInv capacity p (some (buf, pc)) read contents hist)
    (hok : WriterOk (wrappingSub p.queue.tail p.queue.head < p.queue.capacity → wakes)
      (p.readerDropped = true → drops) poll slot (.running waker) (some (buf, pc))) :
    WriterOk
      (wrappingSub (Stream.writeStep p buf pc).1.queue.tail
          (Stream.writeStep p buf pc).1.queue.head <
        (Stream.writeStep p buf pc).1.queue.capacity → wakes)
      ((Stream.writeStep p buf pc).1.readerDropped = true → drops) poll slot
      (afterWrite waker (Stream.writeStep p buf pc).2)
      ((Stream.writeStep p buf pc).2.call buf) := by
  obtain ⟨hpoll, buf', pc', hbuf, hcall, hpc⟩ := hok
  cases hcall
  obtain ⟨-, hwrite⟩ := hhalf.writeOk _ rfl
  have hqueue := len_eq hhalf
  cases pc with
  | checkDropped again =>
    simp only [Stream.writeStep]
    split
    case isTrue => exact rfl
    case isFalse hflag =>
      exact ⟨hpoll, buf, _, hbuf, rfl, fun hagain =>
        (hpc hagain).mono fun _ hdropped => absurd hdropped hflag⟩
  | loadTail again => exact ⟨hpoll, buf, _, hbuf, rfl, hpc⟩
  | loadHead again tail =>
    have hfree := hhalf.ring.free
    have hlength := List.length_pos_iff.mpr hbuf
    rw [← hwrite] at hfree
    simp only [Stream.writeStep, SpscQueue.toPush, hfree]
    split
    case isTrue hzero =>
      cases again with
      | false => exact ⟨⟨buf, hbuf, rfl⟩, hpoll⟩
      | true =>
        -- The queue is full at this moment.
        refine ⟨rfl, hpoll, (hpc rfl).mono fun hdropped => ⟨fun hroom => ?_, hdropped⟩⟩
        have hroom : wrappingSub p.queue.tail p.queue.head < p.queue.capacity := hroom
        omega
    case isFalse => exact ⟨hpoll, buf, _, hbuf, rfl, trivial⟩
  | copy tail n => exact ⟨hpoll, buf, _, hbuf, rfl, trivial⟩
  | storeTail tail n => exact rfl

/-- What the reader looks at: the counters and the flag of the writer. -/
theorem writeStep_pipe (p : HalfPipe) (buf : List UInt8) (pc : WritePc) (waker : W) :
    ((writeStep p buf pc).1.queue.tail = p.queue.tail ∧
      (writeStep p buf pc).1.queue.head = p.queue.head) ∨
    afterWrite waker (writeStep p buf pc).2 = .waking := by
  cases pc with
  | loadTail | copy => exact .inl ⟨rfl, rfl⟩
  | checkDropped =>
    simp only [writeStep]
    split <;> exact .inl ⟨rfl, rfl⟩
  | loadHead again tail =>
    simp only [writeStep]
    split_ifs <;> exact .inl ⟨rfl, rfl⟩
  | storeTail => exact .inr rfl

theorem readerDropped_readStep (p : HalfPipe) (len : Nat) (pc : ReadPc) :
    (readStep p len pc).1.readerDropped = p.readerDropped := by
  cases pc <;> simp only [readStep] <;> split_ifs <;> rfl

end

/-! ### The two directions -/

section

variable {s s' : St W} {h h' : Hist W} {e : End}

theorem ReadDir.frame (hdir : ReadDir s h e) (hqueued : s.QueuedOwed e → s'.QueuedOwed e)
    (hdropped : s.DroppedOwed e → s'.DroppedOwed e)
    (hpoll : h'.readPoll e.other = h.readPoll e.other)
    (hslot : s'.readWaker e.other = s.readWaker e.other)
    (hreader : s'.reader e.other = s.reader e.other)
    (hcall : s'.base.read e.other = s.base.read e.other) : ReadDir s' h' e := by
  rw [ReadDir, hpoll, hslot, hreader, hcall]
  exact ReaderOk.mono hqueued hdropped hdir

theorem WriteDir.frame (hdir : WriteDir s h e) (hfree : s.FreeOwed e → s'.FreeOwed e)
    (hbroken : s.BrokenOwed e → s'.BrokenOwed e) (hpoll : h'.writePoll e = h.writePoll e)
    (hslot : s'.writeWaker e = s.writeWaker e) (hwriter : s'.writer e = s.writer e)
    (hcall : s'.base.write e = s.base.write e) : WriteDir s' h' e := by
  rw [WriteDir, hpoll, hslot, hwriter, hcall]
  exact WriterOk.mono hfree hbroken hdir

variable {base : Stream.St} {waker : W}

/-- A part of the half pipes that is not changed at `e` is not changed at all. -/
theorem setPipe_congr {α : Type} (part : HalfPipe → α) {p : HalfPipe}
    (hp : part p = part (base.pipe e)) (e' : End) :
    part ((base.setPipe e p).pipe e') = part (base.pipe e') := by
  rcases eq_or_ne e' e with rfl | hne
  · simpa only [Stream.St.setPipe, Function.update_self] using hp
  · simp only [Stream.St.setPipe, Function.update_of_ne hne]

theorem other_ne_of_ne {e' : End} (hne : e' ≠ e.other) : e'.other ≠ e := by
  rintro rfl
  exact hne e'.other_other.symm

section

variable {α : Type} {published published' : Prop} {pc pc' wakes : α}

/-- What is published is owed to the sleeper by whoever is at `wakes`. It stays owed while they are
there, -/
theorem owed_congr (hpublished : published' ↔ published) (hpc : pc' = pc)
    (howed : published → pc = wakes) : published' → pc' = wakes := by
  rw [hpublished, hpc]
  exact howed

/-- and nothing was owed if they were not. -/
theorem owed_of_ne (hpublished : published' ↔ published) (hpc : pc ≠ wakes)
    (howed : published → pc = wakes) : published' → pc' = wakes :=
  fun h => absurd (howed (hpublished.mp h)) hpc

end

/-- Nothing has changed in the direction in which `e` writes. -/
structure SameDir (s s' : St W) (h h' : Hist W) (e : End) : Prop where
  pipe : s'.base.pipe e = s.base.pipe e := by rfl
  life : s'.base.life e = s.base.life e := by rfl
  write : s'.base.write e = s.base.write e := by rfl
  read : s'.base.read e.other = s.base.read e.other := by rfl
  writer : s'.writer e = s.writer e := by rfl
  reader : s'.reader e.other = s.reader e.other := by rfl
  writeWaker : s'.writeWaker e = s.writeWaker e := by rfl
  readWaker : s'.readWaker e.other = s.readWaker e.other := by rfl
  writePoll : h'.writePoll e = h.writePoll e := by rfl
  readPoll : h'.readPoll e.other = h.readPoll e.other := by rfl
  drop : s'.drop = s.drop := by rfl

theorem Inv.of_dir (hinv : Inv s h) (hbase : ∃ c hist, ∀ e, DirOk c s'.base hist e)
    (hsame : ∀ e', e' ≠ e → SameDir s s' h h' e') (hread : ReadDir s' h' e)
    (hwrite : WriteDir s' h' e) (hlive : (s'.writer e).busy = true → s'.base.life e = .live)
    (hdrop : s'.base.life e = .live → s'.drop e = .none) : Inv s' h' := by
  refine ⟨hbase, fun e' => ?_, fun e' => ?_, fun e' => ?_, fun e' => ?_⟩ <;>
    rcases eq_or_ne e' e with rfl | hne
  · exact hread
  · obtain ⟨hpipe, -, -, hcall, hwriter, hreader, -, hslot, -, hpoll, hdrop⟩ := hsame e' hne
    refine (hinv.reader e').frame ?_ ?_ hpoll hslot hreader hcall
    · exact owed_congr (by simp only [St.len, hpipe]) hwriter
    · exact owed_congr (by rw [hpipe]) (by rw [hdrop])
  · exact hwrite
  · obtain ⟨hpipe, -, hcall, -, hwriter, hreader, hslot, -, hpoll, -, hdrop⟩ := hsame e' hne
    refine (hinv.writer e').frame ?_ ?_ hpoll hslot hwriter hcall
    · exact owed_congr (by simp only [St.len, hpipe]) hreader
    · exact owed_congr (by rw [hpipe]) (by rw [hdrop])
  · exact hlive
  · rw [(hsame e' hne).writer, (hsame e' hne).life]
    exact hinv.live e'
  · exact hdrop
  · rw [(hsame e' hne).life, (hsame e' hne).drop]
    exact hinv.notDropped e'

theorem ne_waking_of_not_busy {phase : Phase W} (hidle : ¬ phase.busy = true) :
    phase ≠ .waking := by
  rintro rfl
  exact hidle rfl

theorem Inv.dirOk (hinv : Inv s h) {a : Stream.Act} (hbase : Stream.step a s.base = some base) :
    ∃ c hist, ∀ e, DirOk c base hist e := by
  obtain ⟨c, hist, hdir⟩ := hinv.base
  exact ⟨c, _, DirOk.step hdir hbase⟩

variable [DecidableEq W]

/-! ### Reads -/

theorem Inv.read (hinv : Inv s h) {len : Nat} (hstep : step (.read e.other waker len) s = some s') :
    Inv s' (upd (.read e.other waker len) s h) := by
  simp only [step] at hstep
  split at hstep
  case isTrue => cases hstep
  case isFalse hidle =>
    obtain ⟨base, hbase, rfl⟩ := Option.map_eq_some_iff.mp hstep
    have hdirs := hinv.dirOk hbase
    simp only [Stream.step] at hbase
    obtain ⟨hpipe, hwrite, hlife, hother, hcall⟩ : base.pipe = s.base.pipe ∧
        base.write = s.base.write ∧ base.life = s.base.life ∧
        (∀ r, r ≠ e.other → base.read r = s.base.read r) ∧
        base.read e.other = if len = 0 then none else some (len, .loadHead false) := by
      split_ifs at hbase with hfree hzero <;> cases hbase
      · exact ⟨rfl, rfl, rfl, fun _ _ => rfl, by rw [hfree.2, if_pos hzero]⟩
      · refine ⟨rfl, rfl, rfl, fun r hr => Function.update_of_ne hr _ _, ?_⟩
        rw [if_neg hzero]
        exact Function.update_self ..
    refine hinv.of_dir (e := e) hdirs (fun e' hne => ?_) ?_ ?_ ?_ ?_
    · have hne' := End.other_ne hne
      exact { pipe := congrFun hpipe e', life := congrFun hlife e', write := congrFun hwrite e'
              read := hother _ hne', reader := Function.update_of_ne hne' _ _
              readPoll := Function.update_of_ne hne' _ _ }
    · simp only [ReadDir, upd, Function.update_self, hcall]
      split_ifs
      · rfl
      · exact ⟨⟨false, rfl⟩, len, _, rfl, by simp⟩
    · refine (hinv.writer e).frame ?_ ?_ rfl rfl rfl (congrFun hwrite e)
      · exact owed_of_ne (by simp only [St.len, hpipe]) (ne_waking_of_not_busy hidle)
      · exact owed_congr (by simp only [hpipe]) rfl
    · simpa only [hlife] using hinv.live e
    · simpa only [hlife] using hinv.notDropped e

omit [DecidableEq W] in
theorem Inv.readRunning (hinv : Inv s h) {len : Nat} {pc : ReadPc}
    (hphase : s.reader e.other = .running waker) (hcall : s.base.read e.other = some (len, pc))
    (hbase : Stream.step (.runRead e.other) s.base = some base) :
    Inv { s with
      base
      reader := Function.update s.reader e.other
        (afterRead waker pc (readStep (s.base.pipe e) len pc).2) } h := by
  have hdirs := hinv.dirOk hbase
  obtain ⟨call, hcall', rfl⟩ := Option.map_eq_some_iff.mp hbase
  obtain rfl : (len, pc) = call := Option.some.inj (hcall.symm.trans hcall')
  simp only [e.other_other] at hdirs ⊢
  obtain ⟨c, hist, hdir⟩ := hinv.base
  obtain ⟨⟨contents, hhalf⟩, hlife⟩ := hdir e
  rw [hcall] at hhalf
  have hlive : s.writer e = .waking → (s.base.pipe e).writerDropped = false := by
    intro hwaking
    by_contra hflag
    exact hlife (Bool.eq_true_of_not_eq_false hflag) (hinv.live e (by rw [hwaking]; rfl))
  refine hinv.of_dir (e := e) hdirs (fun e' hne => ?_) ?_ ?_ (hinv.live e) (hinv.notDropped e)
  · have hne' := End.other_ne hne
    exact { pipe := Function.update_of_ne hne _ _, read := Function.update_of_ne hne' _ _
            reader := Function.update_of_ne hne' _ _ }
  · have hok := hinv.reader e
    rw [ReadDir, hphase, hcall] at hok
    have hnext := ReaderOk.readStep hhalf hlive hok
    simpa only [ReadDir, St.QueuedOwed, St.DroppedOwed, St.len, St.setPipe,
      Function.update_self] using hnext
  · refine (hinv.writer e).frame ?_ ?_ rfl rfl rfl rfl
    · rcases readStep_pipe (s.base.pipe e) len pc waker with hsame | hwaking
      · refine owed_of_ne ?_ (by rw [hphase]; simp)
        simp only [St.len, St.setPipe, Function.update_self, hsame]
      · exact fun _ _ => by simp only [Function.update_self, hwaking]
    · refine owed_congr (Eq.congr_left ?_) rfl
      exact setPipe_congr HalfPipe.readerDropped (readerDropped_readStep (s.base.pipe e) len pc) e

theorem Inv.runRead (hinv : Inv s h) (hstep : s.runRead e.other = some s') :
    Inv s' (upd (.runRead e.other) s h) := by
  unfold St.runRead at hstep
  cases hphase : s.reader e.other with
  | idle | pending _ => simp [hphase] at hstep
  | register waker =>
    rw [hphase] at hstep
    cases hstep
    simp only [upd, hphase, reduceCtorEq, if_false]
    refine hinv.of_dir (e := e) hinv.base (fun e' hne => ?_) ?_ ?_ (hinv.live e)
      (hinv.notDropped e)
    · have hne' := End.other_ne hne
      exact { readWaker := Function.update_of_ne hne' _ _
              reader := Function.update_of_ne hne' _ _ }
    · have hok := hinv.reader e
      rw [ReadDir, hphase] at hok
      obtain ⟨⟨len, hcall⟩, hpoll⟩ := hok
      simp only [ReadDir, Function.update_self]
      exact ⟨hpoll, len, _, hcall, fun _ => .inr ⟨rfl, trivial⟩⟩
    · refine (hinv.writer e).frame ?_ id rfl rfl rfl rfl
      exact owed_of_ne .rfl (by rw [hphase]; simp)
  | waking =>
    -- Nothing is owed to the writer any more.
    simp only [hphase, Option.some.injEq, e.other_other] at hstep
    subst hstep
    simp only [upd, hphase, if_true, e.other_other, Hist.wakeWriter]
    refine hinv.of_dir (e := e) hinv.base (fun e' hne => ?_) ?_ ?_ (hinv.live e)
      (hinv.notDropped e)
    · exact { writeWaker := Function.update_of_ne hne _ _
              writePoll := Function.update_of_ne hne _ _
              reader := Function.update_of_ne (End.other_ne hne) _ _ }
    · have hok := hinv.reader e
      rw [ReadDir, hphase] at hok
      simp only [ReadDir, Function.update_self]
      exact hok
    · simp only [WriteDir, Function.update_self]
      exact WriterOk.take (hinv.writer e)
  | running waker =>
    cases hcall : s.base.read e.other with
    | none => simp [hphase, hcall] at hstep
    | some call =>
      obtain ⟨len, pc⟩ := call
      simp only [hphase, hcall, e.other_other] at hstep
      obtain ⟨base, hbase, rfl⟩ := Option.map_eq_some_iff.mp hstep
      simp only [upd, hphase, reduceCtorEq, if_false]
      exact hinv.readRunning hphase hcall hbase

/-! ### Writes -/

theorem Inv.write (hinv : Inv s h) {buf : List UInt8}
    (hstep : step (.write e waker buf) s = some s') : Inv s' (upd (.write e waker buf) s h) := by
  simp only [step] at hstep
  split at hstep
  case isTrue => cases hstep
  case isFalse hidle =>
    obtain ⟨base, hbase, rfl⟩ := Option.map_eq_some_iff.mp hstep
    have hdirs := hinv.dirOk hbase
    simp only [Stream.step] at hbase
    obtain ⟨hlive, hpipe, hread, hlife, hother, hcall⟩ : s.base.life e = .live ∧
        base.pipe = s.base.pipe ∧ base.read = s.base.read ∧ base.life = s.base.life ∧
        (∀ e', e' ≠ e → base.write e' = s.base.write e') ∧
        base.write e = if buf = [] then none else some (buf, .checkDropped false) := by
      split_ifs at hbase with hfree hnil <;> cases hbase
      · exact ⟨hfree.1, rfl, rfl, rfl, fun _ _ => rfl, by rw [hfree.2, if_pos hnil]⟩
      · refine ⟨hfree.1, rfl, rfl, rfl, fun e' he => Function.update_of_ne he _ _, ?_⟩
        rw [if_neg hnil]
        exact Function.update_self ..
    refine hinv.of_dir (e := e) hdirs (fun e' hne => ?_) ?_ ?_ (fun _ => ?_) ?_
    · exact { pipe := congrFun hpipe e', life := congrFun hlife e', read := congrFun hread e'.other
              write := hother _ hne, writer := Function.update_of_ne hne _ _
              writePoll := Function.update_of_ne hne _ _ }
    · refine (hinv.reader e).frame ?_ ?_ rfl rfl rfl (congrFun hread e.other)
      · exact owed_of_ne (by simp only [St.len, hpipe]) (ne_waking_of_not_busy hidle)
      · exact owed_congr (by simp only [hpipe]) rfl
    · simp only [WriteDir, upd, Function.update_self, hcall]
      split_ifs with hnil
      · rfl
      · exact ⟨⟨false, rfl⟩, buf, _, hnil, rfl, by simp⟩
    · simpa only [hlife] using hlive
    · simpa only [hlife] using hinv.notDropped e

omit [DecidableEq W] in
theorem Inv.writeRunning (hinv : Inv s h) {buf : List UInt8} {pc : WritePc}
    (hphase : s.writer e = .running waker) (hcall : s.base.write e = some (buf, pc))
    (hbase : Stream.step (.runWrite e) s.base = some base) :
    Inv { s with
      base
      writer := Function.update s.writer e
        (afterWrite waker (writeStep (s.base.pipe e) buf pc).2) } h := by
  have hdirs := hinv.dirOk hbase
  obtain ⟨call, hcall', rfl⟩ := Option.map_eq_some_iff.mp hbase
  obtain rfl : (buf, pc) = call := Option.some.inj (hcall.symm.trans hcall')
  obtain ⟨c, hist, hdir⟩ := hinv.base
  obtain ⟨⟨contents, hhalf⟩, -⟩ := hdir e
  rw [hcall] at hhalf
  refine hinv.of_dir (e := e) hdirs (fun e' hne => ?_) ?_ ?_ (fun _ => ?_) (hinv.notDropped e)
  · exact { pipe := Function.update_of_ne hne _ _, write := Function.update_of_ne hne _ _
            writer := Function.update_of_ne hne _ _ }
  · refine (hinv.reader e).frame ?_ ?_ rfl rfl rfl rfl
    · rcases writeStep_pipe (s.base.pipe e) buf pc waker with ⟨htail, hhead⟩ | hwaking
      · refine owed_of_ne ?_ (by rw [hphase]; simp)
        simp only [St.len, St.setPipe, Function.update_self, htail, hhead]
      · exact fun _ _ => by simp only [Function.update_self, hwaking]
    · refine owed_congr (Eq.congr_left ?_) rfl
      exact setPipe_congr HalfPipe.writerDropped (writerDropped_writeStep (s.base.pipe e) buf pc) e
  · have hok := hinv.writer e
    rw [WriteDir, hphase, hcall] at hok
    have hnext := WriterOk.writeStep hhalf hok
    simpa only [WriteDir, St.FreeOwed, St.BrokenOwed, St.len, St.setPipe,
      Function.update_self] using hnext
  · exact hinv.live e (by rw [hphase]; rfl)

theorem Inv.runWrite (hinv : Inv s h) (hstep : s.runWrite e = some s') :
    Inv s' (upd (.runWrite e) s h) := by
  unfold St.runWrite at hstep
  cases hphase : s.writer e with
  | idle | pending _ => simp [hphase] at hstep
  | register waker =>
    rw [hphase] at hstep
    cases hstep
    simp only [upd, hphase, reduceCtorEq, if_false]
    refine hinv.of_dir (e := e) hinv.base (fun e' hne => ?_) ?_ ?_ (fun _ => ?_)
      (hinv.notDropped e)
    · exact { writeWaker := Function.update_of_ne hne _ _
              writer := Function.update_of_ne hne _ _ }
    · refine (hinv.reader e).frame ?_ id rfl rfl rfl rfl
      exact owed_of_ne .rfl (by rw [hphase]; simp)
    · have hok := hinv.writer e
      rw [WriteDir, hphase] at hok
      obtain ⟨⟨buf, hbuf, hcall⟩, hpoll⟩ := hok
      simp only [WriteDir, Function.update_self]
      exact ⟨hpoll, buf, _, hbuf, hcall, fun _ => .inr ⟨rfl, trivial⟩⟩
    · exact hinv.live e (by rw [hphase]; rfl)
  | waking =>
    -- Nothing is owed to the reader any more.
    rw [hphase] at hstep
    cases hstep
    simp only [upd, hphase, if_true, Hist.wakeReader]
    refine hinv.of_dir (e := e) hinv.base (fun e' hne => ?_) ?_ ?_ (fun hw => ?_)
      (hinv.notDropped e)
    · have hne' := End.other_ne hne
      exact { readWaker := Function.update_of_ne hne' _ _
              readPoll := Function.update_of_ne hne' _ _
              writer := Function.update_of_ne hne _ _ }
    · simp only [ReadDir, Function.update_self]
      exact ReaderOk.take (hinv.reader e)
    · have hok := hinv.writer e
      rw [WriteDir, hphase] at hok
      simp only [WriteDir, Function.update_self]
      exact hok
    · simp [Phase.busy] at hw
  | running waker =>
    cases hcall : s.base.write e with
    | none => simp [hphase, hcall] at hstep
    | some call =>
      obtain ⟨buf, pc⟩ := call
      simp only [hphase, hcall] at hstep
      obtain ⟨base, hbase, rfl⟩ := Option.map_eq_some_iff.mp hstep
      simp only [upd, hphase, reduceCtorEq, if_false]
      exact hinv.writeRunning hphase hcall hbase

/-! ### Drops -/

omit [DecidableEq W] in
theorem len_congr (h : (s'.base.pipe e).queue = (s.base.pipe e).queue) : s'.len e = s.len e := by
  rw [St.len, St.len, h]

theorem Inv.drop (hinv : Inv s h) (hstep : step (.drop e) s = some s') :
    Inv s' (upd (.drop e) s h) := by
  simp only [step] at hstep
  split at hstep
  case isTrue => cases hstep
  case isFalse hidle =>
    obtain ⟨base, hbase, rfl⟩ := Option.map_eq_some_iff.mp hstep
    have hdirs := hinv.dirOk hbase
    simp only [Stream.step] at hbase
    split_ifs at hbase with hfree
    cases hbase
    have hnone := hinv.notDropped e hfree.1
    have hsame {α : Type} (part : HalfPipe → α)
        (hp : part { s.base.pipe e with writerDropped := true } = part (s.base.pipe e))
        (e' : End) := setPipe_congr part hp e'
    refine ⟨hdirs, fun e' => ?_, fun e' => ?_, fun e' hw => ?_, fun e' hl => ?_⟩
    · refine (hinv.reader e').frame ?_ ?_ rfl rfl rfl rfl
      · exact owed_congr (by rw [len_congr (hsame HalfPipe.queue rfl e')]) rfl
      · rcases eq_or_ne e' e with rfl | hne
        · exact fun _ _ => Function.update_self ..
        · exact owed_congr (by simp only [St.setPipe, Function.update_of_ne hne])
            (Function.update_of_ne hne _ _)
    · refine (hinv.writer e').frame ?_ ?_ rfl rfl rfl rfl
      · have hqueue := hsame HalfPipe.queue rfl e'
        exact owed_congr (by rw [len_congr hqueue, hqueue]) rfl
      · have hflag := hsame HalfPipe.readerDropped rfl e'
        rcases eq_or_ne e'.other e with hother | hother
        · exact owed_of_ne (by rw [hflag]) (by rw [hother, hnone]; simp)
        · exact owed_congr (by rw [hflag]) (Function.update_of_ne hother _ _)
    · rcases eq_or_ne e' e with rfl | hne
      · exact absurd (.inr hw) hidle
      · simp only [Function.update_of_ne hne]
        exact hinv.live e' hw
    · rcases eq_or_ne e' e with rfl | hne
      · simp at hl
      · simp only [Function.update_of_ne hne] at hl ⊢
        exact hinv.notDropped e' hl

theorem Inv.runDrop (hinv : Inv s h) (hstep : s.runDrop e = some s') :
    Inv s' (upd (.runDrop e) s h) := by
  unfold St.runDrop at hstep
  -- While `drop` is going on the end is not live.
  have hdead : ∀ pc : DropPc, s.drop e ≠ .none → ∀ e', s.base.life e' = .live →
      Function.update s.drop e pc e' = .none := by
    intro pc hpc e' hl
    rcases eq_or_ne e' e with rfl | hne
    · exact absurd (hinv.notDropped e' hl) hpc
    · rw [Function.update_of_ne hne]
      exact hinv.notDropped e' hl
  cases hdrop : s.drop e with
  | none | done => simp [hdrop] at hstep
  | wakeTx =>
    rw [hdrop] at hstep
    cases hstep
    simp only [upd, hdrop, Hist.wakeReader]
    refine ⟨hinv.base, fun e' => ?_, fun e' => ?_, hinv.live, hdead _ (by rw [hdrop]; simp)⟩
    · rcases eq_or_ne e' e with rfl | hne
      · simp only [ReadDir, Function.update_self]
        exact ReaderOk.take (hinv.reader e')
      · have hne' := End.other_ne hne
        refine (hinv.reader e').frame id ?_ (Function.update_of_ne hne' _ _)
          (Function.update_of_ne hne' _ _) rfl rfl
        exact owed_congr .rfl (Function.update_of_ne hne _ _)
    · refine (hinv.writer e').frame id ?_ rfl rfl rfl rfl
      rcases eq_or_ne e'.other e with hother | hother
      · exact owed_of_ne .rfl (by rw [hother, hdrop]; simp)
      · exact owed_congr .rfl (Function.update_of_ne hother _ _)
  | storeRx =>
    simp only [hdrop] at hstep
    obtain ⟨base, hbase, rfl⟩ := Option.map_eq_some_iff.mp hstep
    have hdirs := hinv.dirOk hbase
    simp only [upd, hdrop]
    simp only [Stream.step] at hbase
    split_ifs at hbase with hdropping
    cases hbase
    have hsame {α : Type} (part : HalfPipe → α)
        (hp : part { s.base.pipe e.other with readerDropped := true } =
          part (s.base.pipe e.other)) (e' : End) := setPipe_congr part hp e'
    refine ⟨hdirs, fun e' => ?_, fun e' => ?_, fun e' hw => ?_, fun e' hl => ?_⟩
    · refine (hinv.reader e').frame ?_ ?_ rfl rfl rfl rfl
      · exact owed_congr (by rw [len_congr (hsame HalfPipe.queue rfl e')]) rfl
      · have hflag := hsame HalfPipe.writerDropped rfl e'
        rcases eq_or_ne e' e with rfl | hne
        · exact owed_of_ne (by rw [hflag]) (by rw [hdrop]; simp)
        · exact owed_congr (by rw [hflag]) (Function.update_of_ne hne _ _)
    · refine (hinv.writer e').frame ?_ ?_ rfl rfl rfl rfl
      · have hqueue := hsame HalfPipe.queue rfl e'
        exact owed_congr (by rw [len_congr hqueue, hqueue]) rfl
      · rcases eq_or_ne e' e.other with rfl | hne
        · intro _ _
          simp only [e.other_other, Function.update_self]
        · exact owed_congr (by simp only [Stream.St.setPipe, Function.update_of_ne hne])
            (Function.update_of_ne (other_ne_of_ne hne) _ _)
    · rcases eq_or_ne e' e with rfl | hne
      · cases hdropping.symm.trans (hinv.live e' hw)
      · simp only [Function.update_of_ne hne]
        exact hinv.live e' hw
    · rcases eq_or_ne e' e with rfl | hne
      · simp at hl
      · simp only [Function.update_of_ne hne] at hl ⊢
        exact hinv.notDropped e' hl
  | wakeRx =>
    rw [hdrop] at hstep
    cases hstep
    simp only [upd, hdrop, Hist.wakeWriter]
    refine ⟨hinv.base, fun e' => ?_, fun e' => ?_, hinv.live, hdead _ (by rw [hdrop]; simp)⟩
    · refine (hinv.reader e').frame id ?_ rfl rfl rfl rfl
      rcases eq_or_ne e' e with rfl | hne
      · exact owed_of_ne .rfl (by rw [hdrop]; simp)
      · exact owed_congr .rfl (Function.update_of_ne hne _ _)
    · rcases eq_or_ne e' e.other with rfl | hne
      · simp only [WriteDir, Function.update_self]
        exact WriterOk.take (hinv.writer e.other)
      · refine (hinv.writer e').frame id ?_ (Function.update_of_ne hne _ _)
          (Function.update_of_ne hne _ _) rfl rfl
        exact owed_congr .rfl (Function.update_of_ne (other_ne_of_ne hne) _ _)

/-! ### Whole runs -/

theorem Inv.step {a : Act W} (hinv : Inv s h) (hstep : StreamWake.step a s = some s') :
    Inv s' (upd a s h) := by
  cases a with
  | read e waker len =>
    obtain ⟨e, rfl⟩ : ∃ e', e = e'.other := ⟨e.other, e.other_other.symm⟩
    exact hinv.read hstep
  | write e waker buf => exact hinv.write hstep
  | runRead e =>
    obtain ⟨e, rfl⟩ : ∃ e', e = e'.other := ⟨e.other, e.other_other.symm⟩
    exact hinv.runRead hstep
  | runWrite e => exact hinv.runWrite hstep
  | drop e => exact hinv.drop hstep
  | runDrop e => exact hinv.runDrop hstep

omit [DecidableEq W] in
theorem inv_new {capacity : Nat} {uninit : End → Nat → UInt8}
    (hbase : pair capacity uninit = some base) : Inv (St.new base : St W) Hist.init := by
  obtain ⟨c, hc, rfl⟩ := Option.map_eq_some_iff.mp hbase
  exact ⟨⟨c, _, dirOk_pair hc hbase⟩, fun _ => rfl, fun _ => rfl, fun _ hw => (by cases hw),
    fun _ _ => rfl⟩

/-- No end that could go on is left asleep. -/
theorem end_not_asleep (capacity : Nat) {tr : List (Act W)} {s : St W} {h : Hist W}
    (hrun : WakeRun capacity tr (s, h)) (e : End) (hquiet : s.Quiet e) : NotAsleep s h e := by
  have hinv : Inv s h := by
    refine hrun.hist_invariant (I := Inv) ?_ (fun _ _ _ _ hinv _ hst => hinv.step hst)
    rintro s ⟨uninit, base, hbase, rfl⟩
    exact inv_new hbase
  exact hinv.notAsleep hquiet

end

/-- The right end finds nothing to read. The left end fills the queue and then finds no room, and
the right end is dropped. -/
def pendingBoth : List (Act Nat) :=
  [[.read .right 7 4], .replicate 7 (.runRead .right), [.write .left 8 [1]],
    .replicate 6 (.runWrite .left), [.write .left 9 [2]], .replicate 7 (.runWrite .left),
    [.drop .right], .replicate 3 (.runDrop .right)].flatten

theorem end_not_asleep_pendingBoth :
    ∃ s h, WakeRun 1 pendingBoth.reverse (s, h) ∧ s.Quiet .left ∧ NotAsleep s h .left ∧
      s.reader .right = .pending 7 ∧ s.writer .left = .pending 9 ∧ s.len .left = 1 ∧
      h.readPoll .right = some (7, true) ∧ h.writePoll .left = some (9, true) := by
  have hexec : ((pair 1 fun _ _ => 0).bind fun base =>
      exec (withHist step upd) pendingBoth (St.new base, Hist.init)).map
        (fun p => (p.1.reader .right, p.1.writer .left, p.1.drop .left, p.1.drop .right,
          p.1.len .left, (p.1.base.pipe .left).readerDropped)) =
      some (.pending 7, .pending 9, .none, .done, 1, true) := by decide +kernel
  obtain ⟨⟨s, h⟩, hexec, heq⟩ := Option.map_eq_some_iff.mp hexec
  obtain ⟨base, hpair, hexec⟩ := Option.bind_eq_some_iff.mp hexec
  simp only [Prod.mk.injEq] at heq
  obtain ⟨hreader, hwriter, hleft, hright, hlen, hflag⟩ := heq
  have hrun : WakeRun 1 pendingBoth.reverse (s, h) :=
    Run.of_exec _ ⟨⟨_, base, hpair, rfl⟩, rfl⟩ hexec
  have hquiet : s.Quiet .left := by
    refine ⟨by rw [hwriter]; rfl, by rw [End.other, hreader]; rfl, fun e => ?_⟩
    cases e with
    | left => rw [hleft]; rfl
    | right => rw [hright]; rfl
  have hawake := end_not_asleep 1 hrun .left hquiet
  exact ⟨s, h, hrun, hquiet, hawake, hreader, hwriter, hlen,
    hawake.reader 7 hreader (.inl (by omega)), hawake.writer 9 hwriter (.inr hflag)⟩

end Dtact.StreamWake
