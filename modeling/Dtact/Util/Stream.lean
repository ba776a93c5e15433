import Mathlib.Data.List.Infix
import Dtact.Lib.Transition
import Dtact.Util.SpscQueue

/-!
# The duplex pipe

A pair of streams shares two half pipes: an `SpscQueue` of bytes and two flags that say which side
has been dropped. The steps are the atomic operations on the queues and on the flags. Each end may
be writing and reading at the same time, and is dropped when it does neither.

Result: `duplex_faithful`. The bytes read are a prefix of the bytes accepted, at most the capacity
is in between, and the end of the stream and a broken pipe are reported only when they are there.
-/

namespace Dtact.Stream

open Transition SpscQueue

/-- `usize::next_power_of_two`; beyond `2 ^ 63` it wraps around to zero. -/
def nextPowerOfTwo (n : Nat) : Nat := if n ≤ 1 then 1 else 2 ^ (Nat.log2 (n - 1) + 1) % usizeMod

/-- The capacity of the queues of a pair. `Vec::with_capacity` panics beyond `isize::MAX`. -/
def pipeCapacity (capacity : Nat) : Option Nat :=
  let capacity := max (nextPowerOfTwo capacity) 1
  if capacity < 2 ^ 63 then some capacity else none

structure HalfPipe where
  queue : SpscQueue UInt8
  writerDropped : Bool
  readerDropped : Bool

def HalfPipe.new (capacity : Nat) (uninit : Nat → UInt8) : HalfPipe :=
  ⟨.new capacity uninit, false, false⟩

/-- The result of a step of a call: it goes on, or it returns. -/
inductive Next (Pc Ret : Type)
  | more (pc : Pc)
  | ret (r : Ret)

/-! ## `poll_write` -/

/-- The operation `poll_write` performs next; `again` after the waker has been registered. -/
inductive WritePc
  | checkDropped (again : Bool)
  | loadTail (again : Bool)
  | loadHead (again : Bool) (tail : Nat)
  | copy (tail n : Nat)
  | storeTail (tail n : Nat)
deriving DecidableEq

inductive WriteRet
  | ok (n : Nat)
  | brokenPipe
  | pending
deriving DecidableEq

def writeStep (p : HalfPipe) (buf : List UInt8) : WritePc → HalfPipe × Next WritePc WriteRet
  | .checkDropped again =>
    if p.readerDropped then (p, .ret .brokenPipe) else (p, .more (.loadTail again))
  | .loadTail again => (p, .more (.loadHead again p.queue.tail))
  | .loadHead again tail =>
    let toPush := p.queue.toPush tail buf.length
    if toPush = 0 then
      if again then (p, .ret .pending) else (p, .more (.checkDropped true))
    else (p, .more (.copy tail toPush))
  | .copy tail n =>
    ({ p with queue := p.queue.copyIn tail (buf.take n) }, .more (.storeTail tail n))
  | .storeTail tail n =>
    ({ p with queue := { p.queue with tail := wrappingAdd tail n } }, .ret (.ok n))

/-! ## `poll_read` -/

/-- The operation `poll_read` performs next. `emptyHead` and `emptyTail` are the loads of
`is_empty`. -/
inductive ReadPc
  | loadHead (again : Bool)
  | loadTail (again : Bool) (head : Nat)
  | copy (head n : Nat)
  | storeHead (head n : Nat) (bytes : List UInt8)
  | checkDropped (again : Bool)
  | emptyHead (again : Bool)
  | emptyTail (again : Bool) (head : Nat)
deriving DecidableEq

/-- `Ok(n)` comes with the `n` bytes that have been stored in the buffer. -/
inductive ReadRet
  | ok (bytes : List UInt8)
  | pending
deriving DecidableEq

/-- Neither bytes nor the end of the stream: try once more after the waker is registered. -/
def ReadPc.retry (again : Bool) : Next ReadPc ReadRet :=
  if again then .ret .pending else .more (.loadHead true)

def readStep (p : HalfPipe) (len : Nat) : ReadPc → HalfPipe × Next ReadPc ReadRet
  | .loadHead again => (p, .more (.loadTail again p.queue.head))
  | .loadTail again head =>
    let toPop := p.queue.toPop head len
    if toPop = 0 then (p, .more (.checkDropped again)) else (p, .more (.copy head toPop))
  | .copy head n => (p, .more (.storeHead head n (p.queue.copyOut head n)))
  | .storeHead head n bytes =>
    ({ p with queue := { p.queue with head := wrappingAdd head n } }, .ret (.ok bytes))
  | .checkDropped again =>
    if p.writerDropped then (p, .more (.emptyHead again)) else (p, ReadPc.retry again)
  | .emptyHead again => (p, .more (.emptyTail again p.queue.head))
  | .emptyTail again head =>
    if head = p.queue.tail then (p, .ret (.ok [])) else (p, ReadPc.retry again)

/-! ## The pair -/

inductive End
  | left
  | right
deriving DecidableEq

def End.other : End → End
  | .left => .right
  | .right => .left

/-- `dropping` is between the two stores of `drop`. -/
inductive Life
  | live
  | dropping
  | dropped
deriving DecidableEq

/-- A half pipe is named after the end that writes to it. A call is kept with its buffer, or
the length of its buffer. -/
structure St where
  pipe : End → HalfPipe
  write : End → Option (List UInt8 × WritePc)
  read : End → Option (Nat × ReadPc)
  life : End → Life

def pair (capacity : Nat) (uninit : End → Nat → UInt8) : Option St :=
  (pipeCapacity capacity).map fun capacity =>
    ⟨fun e => .new capacity (uninit e), fun _ => none, fun _ => none, fun _ => .live⟩

/-- `write` and `read` begin a call of an end, `runWrite` and `runRead` are its next operations;
`dropTx` and `dropRx` are the two stores of `drop`. -/
inductive Act
  | write (e : End) (buf : List UInt8)
  | read (e : End) (len : Nat)
  | runWrite (e : End)
  | runRead (e : End)
  | dropTx (e : End)
  | dropRx (e : End)

def Next.call {Pc Ret Buf : Type} (buf : Buf) : Next Pc Ret → Option (Buf × Pc)
  | .more pc => some (buf, pc)
  | .ret _ => none

def St.setPipe (s : St) (e : End) (p : HalfPipe) : St :=
  { s with pipe := Function.update s.pipe e p }

/-- An empty buffer is a success at once. -/
def step : Act → St → Option St
  | .write e buf, s =>
    if s.life e = .live ∧ s.write e = none then
      if buf = [] then some s
      else some { s with write := Function.update s.write e (some (buf, .checkDropped false)) }
    else none
  | .read e len, s =>
    if s.life e = .live ∧ s.read e = none then
      if len = 0 then some s
      else some { s with read := Function.update s.read e (some (len, .loadHead false)) }
    else none
  | .runWrite e, s =>
    (s.write e).map fun (buf, pc) =>
      let (p, next) := writeStep (s.pipe e) buf pc
      { s.setPipe e p with write := Function.update s.write e (next.call buf) }
  | .runRead e, s =>
    (s.read e).map fun (len, pc) =>
      let (p, next) := readStep (s.pipe e.other) len pc
      { s.setPipe e.other p with read := Function.update s.read e (next.call len) }
  | .dropTx e, s =>
    if s.life e = .live ∧ s.write e = none ∧ s.read e = none then
      some { s.setPipe e { s.pipe e with writerDropped := true } with
        life := Function.update s.life e .dropping }
    else none
  | .dropRx e, s =>
    if s.life e = .dropping then
      some { s.setPipe e.other { s.pipe e.other with readerDropped := true } with
        life := Function.update s.life e .dropped }
    else none

/-! ## What the calls return -/

/-- The calls that have returned, in this order, with their buffers. -/
structure Hist where
  writes : List (List UInt8 × WriteRet)
  reads : List (Nat × ReadRet)

/-- `Ok(n)` accepts the first `n` bytes of the buffer. -/
def acceptedBy : List UInt8 × WriteRet → List UInt8
  | (buf, .ok n) => buf.take n
  | _ => []

def readBy : Nat × ReadRet → List UInt8
  | (_, .ok bytes) => bytes
  | _ => []

def Hist.accepted (h : Hist) : List UInt8 := (h.writes.map acceptedBy).flatten

def Hist.returned (h : Hist) : List UInt8 := (h.reads.map readBy).flatten

def Hist.addWrite (h : Hist) (buf : List UInt8) : Next WritePc WriteRet → Hist
  | .more _ => h
  | .ret r => { h with writes := h.writes ++ [(buf, r)] }

def Hist.addRead (h : Hist) (len : Nat) : Next ReadPc ReadRet → Hist
  | .more _ => h
  | .ret r => { h with reads := h.reads ++ [(len, r)] }

/-- The history of a half pipe has the writes of its end and the reads of the other one. -/
def upd (a : Act) (s : St) (h : End → Hist) : End → Hist :=
  match a with
  | .write e buf =>
    if buf = [] then Function.update h e ((h e).addWrite buf (.ret (.ok 0))) else h
  | .read e len =>
    if len = 0 then Function.update h e.other ((h e.other).addRead len (.ret (.ok []))) else h
  | .runWrite e =>
    match s.write e with
    | some (buf, pc) =>
      Function.update h e ((h e).addWrite buf (writeStep (s.pipe e) buf pc).2)
    | none => h
  | .runRead e =>
    match s.read e with
    | some (len, pc) =>
      Function.update h e.other ((h e.other).addRead len (readStep (s.pipe e.other) len pc).2)
    | none => h
  | .dropTx _ | .dropRx _ => h

abbrev StreamRun (capacity : Nat) : List Act → St × (End → Hist) → Prop :=
  Run (initHist (fun s => ∃ uninit, pair capacity uninit = some s) fun _ => ⟨[], []⟩)
    (withHist step upd) Free

/-- A half pipe is a byte stream. -/
structure Faithful (capacity : Nat) (p : HalfPipe) (h : Hist) : Prop where
  inOrder : h.returned <+: h.accepted
  bounded : h.accepted.length ≤ h.returned.length + capacity
  /-- `Ok(n)` is at most the length of the buffer. -/
  writeFits : ∀ buf n, (buf, WriteRet.ok n) ∈ h.writes → n ≤ buf.length
  readFits : ∀ len bytes, (len, ReadRet.ok bytes) ∈ h.reads → bytes.length ≤ len
  eof : ∀ len, (len, ReadRet.ok []) ∈ h.reads → len ≠ 0 →
    p.writerDropped = true ∧ h.returned = h.accepted
  brokenPipe : ∀ buf, (buf, WriteRet.brokenPipe) ∈ h.writes → p.readerDropped = true

/-! ## The invariant of a half pipe -/

section

variable {capacity pos len : Nat} {p : HalfPipe} {write : Option (List UInt8 × WritePc)}
  {read : Option (Nat × ReadPc)} {contents buf : List UInt8} {h : Hist}

/-- What a write knows when `pos` bytes have been read and `contents` are queued. -/
def WriteOk (q : SpscQueue UInt8) (pos : Nat) (contents : List UInt8) :
    List UInt8 × WritePc → Prop
  | (_, .checkDropped _) | (_, .loadTail _) => True
  | (_, .loadHead _ tail) => tail = (pos + contents.length) % usizeMod
  | (buf, .copy tail n) =>
    tail = (pos + contents.length) % usizeMod ∧ n ≤ buf.length ∧ contents.length + n ≤ q.capacity
  | (buf, .storeTail tail n) =>
    tail = (pos + contents.length) % usizeMod ∧ n ≤ buf.length ∧
      contents.length + n ≤ q.capacity ∧
      Circular.Holds q.capacity q.buffer (pos + contents.length) (buf.take n)

def ReadOk (writerDropped : Bool) (pos : Nat) (contents : List UInt8) : Nat × ReadPc → Prop
  | (_, .loadHead _) | (_, .checkDropped _) => True
  | (_, .loadTail _ head) => head = pos % usizeMod
  | (len, .copy head n) => head = pos % usizeMod ∧ 0 < n ∧ n ≤ len ∧ n ≤ contents.length
  | (len, .storeHead head n bytes) =>
    head = pos % usizeMod ∧ 0 < n ∧ n ≤ len ∧ n ≤ contents.length ∧ bytes = contents.take n
  | (_, .emptyHead _) => writerDropped = true
  | (_, .emptyTail _ head) => writerDropped = true ∧ head = pos % usizeMod

/-- A read that has begun is not disturbed by bytes that are added. -/
theorem ReadOk.publish {writerDropped : Bool} {call : Nat × ReadPc} (src : List UInt8)
    (hcall : ReadOk writerDropped pos contents call) :
    ReadOk writerDropped pos (contents ++ src) call := by
  obtain ⟨len, pc⟩ := call
  cases pc with
  | copy head n =>
    obtain ⟨hhead, hpos, hlen, hn⟩ := hcall
    exact ⟨hhead, hpos, hlen, hn.trans (by simp)⟩
  | storeHead head n bytes =>
    obtain ⟨hhead, hpos, hlen, hn, rfl⟩ := hcall
    exact ⟨hhead, hpos, hlen, hn.trans (by simp), (List.take_append_of_le_length hn).symm⟩
  | loadHead | loadTail | checkDropped | emptyHead | emptyTail => exact hcall

/-- A write that has begun is not disturbed by bytes that are taken. -/
theorem WriteOk.consume {q : SpscQueue UInt8} {call : List UInt8 × WritePc} {n head : Nat}
    (hn : n ≤ contents.length) (hcall : WriteOk q pos contents call) :
    WriteOk { q with head } (pos + n) (contents.drop n) call := by
  obtain ⟨buf, pc⟩ := call
  have htail : pos + n + (contents.drop n).length = pos + contents.length := by
    rw [List.length_drop]
    omega
  have hle : (contents.drop n).length ≤ contents.length := by simp
  cases pc with
  | checkDropped | loadTail => trivial
  | loadHead again tail => simpa only [WriteOk, htail] using hcall
  | copy tail m =>
    obtain ⟨htl, hm, hfree⟩ := hcall
    exact ⟨htail ▸ htl, hm, (Nat.add_le_add_right hle m).trans hfree⟩
  | storeTail tail m =>
    obtain ⟨htl, hm, hfree, hholds⟩ := hcall
    exact ⟨htail ▸ htl, hm, (Nat.add_le_add_right hle m).trans hfree, htail ▸ hholds⟩

structure HalfInv (capacity : Nat) (p : HalfPipe) (write : Option (List UInt8 × WritePc))
    (read : Option (Nat × ReadPc)) (contents : List UInt8) (h : Hist) : Prop where
  capacity : p.queue.capacity = capacity
  ring : Ring p.queue h.returned.length contents
  accepted : h.accepted = h.returned ++ contents
  writeOk : ∀ call ∈ write,
    p.writerDropped = false ∧ WriteOk p.queue h.returned.length contents call
  readOk : ∀ call ∈ read, call.1 ≠ 0 ∧ ReadOk p.writerDropped h.returned.length contents call
  writeFits : ∀ buf n, (buf, WriteRet.ok n) ∈ h.writes → n ≤ buf.length
  readFits : ∀ len bytes, (len, ReadRet.ok bytes) ∈ h.reads → bytes.length ≤ len
  eof : ∀ len, (len, ReadRet.ok []) ∈ h.reads → len ≠ 0 → p.writerDropped = true ∧ contents = []
  brokenPipe : ∀ buf, (buf, WriteRet.brokenPipe) ∈ h.writes → p.readerDropped = true

theorem Hist.accepted_addWrite (h : Hist) (buf : List UInt8) (r : WriteRet) :
    (h.addWrite buf (.ret r)).accepted = h.accepted ++ acceptedBy (buf, r) := by
  simp [Hist.addWrite, Hist.accepted]

theorem Hist.returned_addRead (h : Hist) (len : Nat) (r : ReadRet) :
    (h.addRead len (.ret r)).returned = h.returned ++ readBy (len, r) := by
  simp [Hist.addRead, Hist.returned]

theorem HalfInv.writeNothing (hinv : HalfInv capacity p write read contents h) {r : WriteRet}
    (hnothing : acceptedBy (buf, r) = []) (hfits : ∀ n, r = .ok n → n ≤ buf.length)
    (hbroken : r = .brokenPipe → p.readerDropped = true) :
    HalfInv capacity p none read contents (h.addWrite buf (.ret r)) := by
  refine { hinv with
    accepted := by rw [Hist.accepted_addWrite, hnothing, List.append_nil]; exact hinv.accepted
    writeOk := fun _ hcall => absurd hcall (Option.not_mem_none _)
    writeFits := fun buf' n hmem => ?_
    brokenPipe := fun buf' hmem => ?_ }
  · rcases List.mem_append.mp hmem with hmem | hmem
    · exact hinv.writeFits buf' n hmem
    · obtain ⟨rfl, hr⟩ := Prod.mk.inj (List.mem_singleton.mp hmem)
      exact hfits n hr.symm
  · rcases List.mem_append.mp hmem with hmem | hmem
    · exact hinv.brokenPipe buf' hmem
    · exact hbroken (Prod.mk.inj (List.mem_singleton.mp hmem)).2.symm

/-- The store of the tail: the run is accepted and queued. -/
theorem HalfInv.writeStore {tail n : Nat}
    (hinv : HalfInv capacity p (some (buf, .storeTail tail n)) read contents h) :
    HalfInv capacity { p with queue := { p.queue with tail := wrappingAdd tail n } } none read
      (contents ++ buf.take n) (h.addWrite buf (.ret (.ok n))) := by
  obtain ⟨hdropped, rfl, hn, hfree, hholds⟩ := hinv.writeOk _ rfl
  have hlen : (buf.take n).length = n := List.length_take_of_le hn
  refine { hinv with
    ring := ?_
    accepted := by rw [Hist.accepted_addWrite, hinv.accepted, List.append_assoc]; rfl
    writeOk := fun _ hcall => absurd hcall (Option.not_mem_none _)
    readOk := fun call hcall => (hinv.readOk call hcall).imp_right (ReadOk.publish _)
    writeFits := fun buf' m hmem => ?_
    eof := fun len hmem hne => absurd (hinv.eof len hmem hne).1 (by simp [hdropped])
    brokenPipe := fun buf' hmem => ?_ }
  · have hring := hinv.ring.publish (hlen.symm ▸ hfree) hholds
    rwa [hlen] at hring
  · rcases List.mem_append.mp hmem with hmem | hmem
    · exact hinv.writeFits buf' m hmem
    · obtain ⟨rfl, hr⟩ := Prod.mk.inj (List.mem_singleton.mp hmem)
      exact WriteRet.ok.inj hr ▸ hn
  · rcases List.mem_append.mp hmem with hmem | hmem
    · exact hinv.brokenPipe buf' hmem
    · cases (Prod.mk.inj (List.mem_singleton.mp hmem)).2

theorem HalfInv.writeMore {pc pc' : WritePc}
    (hinv : HalfInv capacity p (some (buf, pc)) read contents h)
    (hpc : WriteOk p.queue h.returned.length contents (buf, pc')) :
    HalfInv capacity p (some (buf, pc')) read contents h :=
  { hinv with
    writeOk := fun _ hcall => Option.mem_some.mp hcall ▸ ⟨(hinv.writeOk _ rfl).1, hpc⟩ }

theorem HalfInv.writeStep {pc : WritePc}
    (hinv : HalfInv capacity p (some (buf, pc)) read contents h) :
    ∃ contents', HalfInv capacity (writeStep p buf pc).1 ((writeStep p buf pc).2.call buf) read
      contents' (h.addWrite buf (writeStep p buf pc).2) := by
  have hpc := (hinv.writeOk _ rfl).2
  cases pc with
  | checkDropped again =>
    refine ⟨contents, ?_⟩
    simp only [Stream.writeStep]
    split
    · next hdropped => exact hinv.writeNothing rfl (by simp) fun _ => hdropped
    · exact hinv.writeMore trivial
  | loadTail again => exact ⟨contents, hinv.writeMore hinv.ring.tail⟩
  | loadHead again tail =>
    refine ⟨contents, ?_⟩
    obtain rfl := hpc
    have hfree := hinv.ring.free
    have hbounded := hinv.ring.bounded
    simp only [Stream.writeStep, toPush, hfree]
    split
    · split
      · exact hinv.writeNothing rfl (by simp) (by simp)
      · exact hinv.writeMore trivial
    · exact hinv.writeMore ⟨rfl, by omega, by omega⟩
  | copy tail n =>
    refine ⟨contents, ?_⟩
    obtain ⟨rfl, hn, hfree⟩ := hpc
    have hlen : (buf.take n).length = n := List.length_take_of_le hn
    obtain ⟨hring, hholds⟩ := hinv.ring.copyIn (buf.take n) (hlen.symm ▸ hfree)
    exact { hinv with
      ring := hring
      writeOk := fun _ hcall => Option.mem_some.mp hcall ▸
        ⟨(hinv.writeOk _ rfl).1, rfl, hn, hfree, hholds⟩ }
  | storeTail tail n => exact ⟨contents ++ buf.take n, hinv.writeStore⟩

/-! ### Reads -/

theorem HalfInv.readNothing (hinv : HalfInv capacity p write read contents h) {r : ReadRet}
    (hnothing : readBy (len, r) = [])
    (heof : r = .ok [] → len ≠ 0 → p.writerDropped = true ∧ contents = []) :
    HalfInv capacity p write none contents (h.addRead len (.ret r)) := by
  have hreturned : (h.addRead len (.ret r)).returned = h.returned := by
    rw [Hist.returned_addRead, hnothing, List.append_nil]
  refine { hinv with
    ring := hreturned.symm ▸ hinv.ring
    accepted := hreturned.symm ▸ hinv.accepted
    writeOk := hreturned.symm ▸ hinv.writeOk
    readOk := fun _ hcall => absurd hcall (Option.not_mem_none _)
    readFits := fun len' bytes hmem => ?_
    eof := fun len' hmem hne => ?_ }
  · rcases List.mem_append.mp hmem with hmem | hmem
    · exact hinv.readFits len' bytes hmem
    · obtain ⟨rfl, rfl⟩ := Prod.mk.inj (List.mem_singleton.mp hmem)
      rw [show bytes = [] from hnothing]
      exact Nat.zero_le _
  · rcases List.mem_append.mp hmem with hmem | hmem
    · exact hinv.eof len' hmem hne
    · obtain ⟨rfl, hr⟩ := Prod.mk.inj (List.mem_singleton.mp hmem)
      exact heof hr.symm hne

/-- The store of the head: the oldest bytes have been read. -/
theorem HalfInv.readStore {head n : Nat} {bytes : List UInt8}
    (hinv : HalfInv capacity p write (some (len, .storeHead head n bytes)) contents h) :
    HalfInv capacity { p with queue := { p.queue with head := wrappingAdd head n } } write none
      (contents.drop n) (h.addRead len (.ret (.ok bytes))) := by
  obtain ⟨-, rfl, hpos, hlen, hn, rfl⟩ := hinv.readOk _ rfl
  have hreturned : (h.addRead len (.ret (.ok (contents.take n)))).returned =
      h.returned ++ contents.take n := Hist.returned_addRead h len _
  have hlength : (h.addRead len (.ret (.ok (contents.take n)))).returned.length =
      h.returned.length + n := by
    rw [hreturned, List.length_append, List.length_take_of_le hn]
  refine { hinv with
    ring := hlength ▸ hinv.ring.consume hn
    accepted := ?_
    writeOk := fun call hcall => hlength ▸ (hinv.writeOk call hcall).imp_right (WriteOk.consume hn)
    readOk := fun _ hcall => absurd hcall (Option.not_mem_none _)
    readFits := fun len' bytes hmem => ?_
    eof := fun len' hmem hne => ?_ }
  · rw [hreturned, List.append_assoc, List.take_append_drop]
    exact hinv.accepted
  · rcases List.mem_append.mp hmem with hmem | hmem
    · exact hinv.readFits len' bytes hmem
    · obtain ⟨rfl, hbytes⟩ := Prod.mk.inj (List.mem_singleton.mp hmem)
      rw [ReadRet.ok.inj hbytes, List.length_take_of_le hn]
      exact hlen
  · rcases List.mem_append.mp hmem with hmem | hmem
    · obtain ⟨hdropped, rfl⟩ := hinv.eof len' hmem hne
      exact ⟨hdropped, List.drop_nil⟩
    · have hbytes := ReadRet.ok.inj (Prod.mk.inj (List.mem_singleton.mp hmem)).2
      have hzero := congrArg List.length hbytes
      rw [List.length_take_of_le hn] at hzero
      exact absurd hzero.symm hpos.ne'

theorem HalfInv.readMore {pc pc' : ReadPc}
    (hinv : HalfInv capacity p write (some (len, pc)) contents h)
    (hpc : ReadOk p.writerDropped h.returned.length contents (len, pc')) :
    HalfInv capacity p write (some (len, pc')) contents h :=
  { hinv with
    readOk := fun _ hcall => Option.mem_some.mp hcall ▸ ⟨(hinv.readOk _ rfl).1, hpc⟩ }

theorem HalfInv.readRetry {pc : ReadPc} (again : Bool)
    (hinv : HalfInv capacity p write (some (len, pc)) contents h) :
    HalfInv capacity p write ((ReadPc.retry again).call len) contents
      (h.addRead len (ReadPc.retry again)) := by
  cases again with
  | false => exact hinv.readMore trivial
  | true => exact hinv.readNothing rfl (by simp)

theorem HalfInv.readStep {pc : ReadPc}
    (hinv : HalfInv capacity p write (some (len, pc)) contents h) :
    ∃ contents', HalfInv capacity (readStep p len pc).1 write ((readStep p len pc).2.call len)
      contents' (h.addRead len (readStep p len pc).2) := by
  obtain ⟨hlen, hpc⟩ := hinv.readOk _ rfl
  cases pc with
  | loadHead again => exact ⟨contents, hinv.readMore hinv.ring.head⟩
  | loadTail again head =>
    refine ⟨contents, ?_⟩
    obtain rfl := hpc
    simp only [Stream.readStep, toPop, hinv.ring.avail]
    split
    · exact hinv.readMore trivial
    · exact hinv.readMore ⟨rfl, by omega, by omega, by omega⟩
  | copy head n =>
    obtain ⟨rfl, hpos, hle, hn⟩ := hpc
    exact ⟨contents, hinv.readMore ⟨rfl, hpos, hle, hn, hinv.ring.copyOut hn⟩⟩
  | storeHead head n bytes => exact ⟨contents.drop n, hinv.readStore⟩
  | checkDropped again =>
    refine ⟨contents, ?_⟩
    simp only [Stream.readStep]
    split
    · next hdropped => exact hinv.readMore hdropped
    · exact hinv.readRetry again
  | emptyHead again => exact ⟨contents, hinv.readMore ⟨hpc, hinv.ring.head⟩⟩
  | emptyTail again head =>
    refine ⟨contents, ?_⟩
    obtain ⟨hdropped, rfl⟩ := hpc
    simp only [Stream.readStep]
    split
    · next hempty =>
      have hzero := hinv.ring.avail
      rw [← hempty, wrappingSub_mod le_rfl (by simp [usizeMod]), Nat.sub_self] at hzero
      exact hinv.readNothing rfl fun _ _ => ⟨hdropped, List.length_eq_zero_iff.mp hzero.symm⟩
    · exact hinv.readRetry again

theorem HalfInv.dropWriter (hinv : HalfInv capacity p none read contents h) :
    HalfInv capacity { p with writerDropped := true } none read contents h := by
  refine { hinv with
    writeOk := fun _ hcall => absurd hcall (Option.not_mem_none _)
    readOk := fun call hcall => (hinv.readOk call hcall).imp_right fun hok => ?_
    eof := fun len hmem hne => ⟨rfl, (hinv.eof len hmem hne).2⟩ }
  obtain ⟨len, pc⟩ := call
  cases pc with
  | emptyHead => rfl
  | emptyTail => exact ⟨rfl, hok.2⟩
  | loadHead | loadTail | copy | storeHead | checkDropped => exact hok

theorem HalfInv.dropReader (hinv : HalfInv capacity p write read contents h) :
    HalfInv capacity { p with readerDropped := true } write read contents h :=
  { hinv with brokenPipe := fun _ _ => rfl }

theorem HalfInv.faithful (hinv : HalfInv capacity p write read contents h) :
    Faithful capacity p h where
  inOrder := ⟨contents, hinv.accepted.symm⟩
  bounded := by
    rw [hinv.accepted, List.length_append, ← hinv.capacity]
    exact Nat.add_le_add_left hinv.ring.bounded _
  writeFits := hinv.writeFits
  readFits := hinv.readFits
  eof := fun len hmem hne => (hinv.eof len hmem hne).imp_right fun hnil => by
    rw [hinv.accepted, hnil, List.append_nil]
  brokenPipe := hinv.brokenPipe

end

/-! ## The pair -/

def DirOk (capacity : Nat) (s : St) (h : End → Hist) (e : End) : Prop :=
  (∃ contents, HalfInv capacity (s.pipe e) (s.write e) (s.read e.other) contents (h e)) ∧
    ((s.pipe e).writerDropped = true → s.life e ≠ .live)

theorem End.other_other (e : End) : e.other.other = e := by cases e <;> rfl

theorem End.other_ne {e e' : End} (hne : e' ≠ e) : e'.other ≠ e.other := by
  cases e <;> cases e' <;> simp_all [End.other]

section

variable {capacity : Nat} {s s' : St} {h : End → Hist} {a : Act} {e : End}

section

variable (hinv : ∀ e, DirOk capacity s h e)

include hinv

/-- Only the half pipe of `e` is changed, and no end comes back to life. -/
theorem DirOk.frame {h' : End → Hist} (e : End) (he : DirOk capacity s' h' e)
    (hpipe : ∀ e' ≠ e, s'.pipe e' = s.pipe e') (hwrite : ∀ e' ≠ e, s'.write e' = s.write e')
    (hread : ∀ e' ≠ e.other, s'.read e' = s.read e')
    (hlife : ∀ e', s.life e' ≠ .live → s'.life e' ≠ .live) (hhist : ∀ e' ≠ e, h' e' = h e')
    (e' : End) : DirOk capacity s' h' e' := by
  rcases eq_or_ne e' e with rfl | hne
  · exact he
  · obtain ⟨hhalf, hdropped⟩ := hinv e'
    rw [DirOk, hpipe e' hne, hwrite e' hne, hread e'.other (End.other_ne hne), hhist e' hne]
    exact ⟨hhalf, fun hd => hlife e' (hdropped hd)⟩

theorem DirOk.write {p : HalfPipe} {call : Option (List UInt8 × WritePc)} {contents : List UInt8}
    {hist : Hist} (hhalf : HalfInv capacity p call (s.read e.other) contents hist)
    (hdropped : p.writerDropped = (s.pipe e).writerDropped) (e' : End) :
    DirOk capacity { s.setPipe e p with write := Function.update s.write e call }
      (Function.update h e hist) e' := by
  have he : DirOk capacity { s.setPipe e p with write := Function.update s.write e call }
      (Function.update h e hist) e := by
    simp only [DirOk, St.setPipe, Function.update_self, hdropped]
    exact ⟨⟨contents, hhalf⟩, (hinv e).2⟩
  exact DirOk.frame hinv e he (fun e' hne => Function.update_of_ne hne _ _)
    (fun e' hne => Function.update_of_ne hne _ _) (fun _ _ => rfl) (fun _ hlife => hlife)
    (fun e' hne => Function.update_of_ne hne _ _) e'

theorem DirOk.read {p : HalfPipe} {call : Option (Nat × ReadPc)} {contents : List UInt8}
    {hist : Hist} (hhalf : HalfInv capacity p (s.write e.other) call contents hist)
    (hdropped : p.writerDropped = (s.pipe e.other).writerDropped) (e' : End) :
    DirOk capacity { s.setPipe e.other p with read := Function.update s.read e call }
      (Function.update h e.other hist) e' := by
  have he : DirOk capacity { s.setPipe e.other p with read := Function.update s.read e call }
      (Function.update h e.other hist) e.other := by
    simp only [DirOk, St.setPipe, End.other_other, Function.update_self, hdropped]
    exact ⟨⟨contents, hhalf⟩, (hinv e.other).2⟩
  exact DirOk.frame hinv e.other he (fun e' hne => Function.update_of_ne hne _ _)
    (fun _ _ => rfl) (fun e' hne => Function.update_of_ne (e.other_other ▸ hne) _ _)
    (fun _ hlife => hlife) (fun e' hne => Function.update_of_ne hne _ _) e'

/-- A call with an empty buffer returns at once. -/
theorem DirOk.hist {contents : List UInt8} {hist : Hist}
    (hhalf : HalfInv capacity (s.pipe e) (s.write e) (s.read e.other) contents hist) (e' : End) :
    DirOk capacity s (Function.update h e hist) e' := by
  have he : DirOk capacity s (Function.update h e hist) e := by
    simp only [DirOk, Function.update_self]
    exact ⟨⟨contents, hhalf⟩, (hinv e).2⟩
  exact DirOk.frame hinv e he (fun _ _ => rfl) (fun _ _ => rfl) (fun _ _ => rfl)
    (fun _ hlife => hlife) (fun e' hne => Function.update_of_ne hne _ _) e'

end

theorem St.update_life_ne_live {e' : End} {life : Life} (hlife : life ≠ .live)
    (hdead : s.life e' ≠ .live) : Function.update s.life e life e' ≠ .live := by
  rcases eq_or_ne e' e with rfl | hne
  · rwa [Function.update_self]
  · rwa [Function.update_of_ne hne]

/-- A store of `drop`, on the half pipe of `e`, by the end `closer`. -/
theorem DirOk.drop (hinv : ∀ e, DirOk capacity s h e) {closer : End} {life : Life}
    (hlife : life ≠ .live) {p : HalfPipe} {contents : List UInt8}
    (hhalf : HalfInv capacity p (s.write e) (s.read e.other) contents (h e))
    (hdead : p.writerDropped = true → Function.update s.life closer life e ≠ .live) (e' : End) :
    DirOk capacity { s.setPipe e p with life := Function.update s.life closer life } h e' := by
  have he :
      DirOk capacity { s.setPipe e p with life := Function.update s.life closer life } h e := by
    simp only [DirOk, St.setPipe, Function.update_self]
    exact ⟨⟨contents, hhalf⟩, hdead⟩
  exact DirOk.frame hinv e he (fun e' hne => Function.update_of_ne hne _ _) (fun _ _ => rfl)
    (fun _ _ => rfl) (fun _ => St.update_life_ne_live hlife) (fun _ _ => rfl) e'

theorem writerDropped_writeStep (p : HalfPipe) (buf : List UInt8) (pc : WritePc) :
    (writeStep p buf pc).1.writerDropped = p.writerDropped := by
  cases pc <;> simp only [writeStep] <;> split_ifs <;> rfl

theorem writerDropped_readStep (p : HalfPipe) (len : Nat) (pc : ReadPc) :
    (readStep p len pc).1.writerDropped = p.writerDropped := by
  cases pc <;> simp only [readStep] <;> split_ifs <;> rfl

theorem St.setPipe_self (s : St) (e : End) : s.setPipe e (s.pipe e) = s := by
  simp only [St.setPipe, Function.update_eq_self]

theorem DirOk.step (hinv : ∀ e, DirOk capacity s h e) (hst : step a s = some s') (e' : End) :
    DirOk capacity s' (upd a s h) e' := by
  cases a with
  | write e buf =>
    obtain ⟨⟨contents, hhalf⟩, hlive⟩ := hinv e
    simp only [Stream.step] at hst
    split_ifs at hst with hidle hnil <;> cases hst
    · have hret : HalfInv capacity (s.pipe e) none (s.read e.other) contents
          ((h e).addWrite buf (.ret (.ok 0))) := hhalf.writeNothing rfl (by simp) (by simp)
      simp only [upd, if_pos hnil]
      exact DirOk.hist hinv (hidle.2.symm ▸ hret) e'
    · simp only [upd, if_neg hnil]
      have hopen : (s.pipe e).writerDropped = false := by
        by_contra hd
        exact hlive (Bool.eq_true_of_not_eq_false hd) hidle.1
      have hbegin : HalfInv capacity (s.pipe e) (some (buf, .checkDropped false)) (s.read e.other)
          contents (h e) :=
        { hhalf with writeOk := fun _ hcall => Option.mem_some.mp hcall ▸ ⟨hopen, trivial⟩ }
      have hdir := DirOk.write hinv hbegin rfl e'
      rwa [St.setPipe_self, Function.update_eq_self] at hdir
  | read e len =>
    obtain ⟨⟨contents, hhalf⟩, -⟩ := hinv e.other
    rw [e.other_other] at hhalf
    simp only [Stream.step] at hst
    split_ifs at hst with hidle hzero <;> cases hst
    · have hret : HalfInv capacity (s.pipe e.other) (s.write e.other) (s.read e.other.other)
          contents ((h e.other).addRead len (.ret (.ok []))) := by
        rw [e.other_other, hidle.2]
        exact hhalf.readNothing rfl fun _ hne => absurd hzero hne
      simp only [upd, if_pos hzero]
      exact DirOk.hist hinv hret e'
    · simp only [upd, if_neg hzero]
      have hbegin : HalfInv capacity (s.pipe e.other) (s.write e.other)
          (some (len, .loadHead false)) contents (h e.other) :=
        { hhalf with readOk := fun _ hcall => Option.mem_some.mp hcall ▸ ⟨hzero, trivial⟩ }
      have hdir := DirOk.read hinv hbegin rfl e'
      rwa [St.setPipe_self, Function.update_eq_self] at hdir
  | runWrite e =>
    obtain ⟨⟨buf, pc⟩, hcall, rfl⟩ := Option.map_eq_some_iff.mp hst
    obtain ⟨contents, hhalf⟩ := (hinv e).1
    rw [hcall] at hhalf
    obtain ⟨contents', hhalf⟩ := hhalf.writeStep
    simp only [upd, hcall]
    exact DirOk.write hinv hhalf (writerDropped_writeStep _ _ _) e'
  | runRead e =>
    obtain ⟨⟨len, pc⟩, hcall, rfl⟩ := Option.map_eq_some_iff.mp hst
    obtain ⟨contents, hhalf⟩ := (hinv e.other).1
    rw [e.other_other, hcall] at hhalf
    obtain ⟨contents', hhalf⟩ := hhalf.readStep
    simp only [upd, hcall]
    exact DirOk.read hinv hhalf (writerDropped_readStep _ _ _) e'
  | dropTx e =>
    obtain ⟨contents, hhalf⟩ := (hinv e).1
    simp only [Stream.step] at hst
    split_ifs at hst with hidle
    cases hst
    rw [hidle.2.1] at hhalf
    exact DirOk.drop hinv (by decide) (hidle.2.1.symm ▸ hhalf.dropWriter)
      (fun _ => by simp [Function.update_self]) e'
  | dropRx e =>
    obtain ⟨⟨contents, hhalf⟩, hdropped⟩ := hinv e.other
    simp only [Stream.step] at hst
    split_ifs at hst with hidle
    cases hst
    exact DirOk.drop hinv (by decide) hhalf.dropReader
      (fun hd => St.update_life_ne_live (by decide) (hdropped hd)) e'

/-- The capacity of the queues is a power of two that fits into half a word, and at most the
argument of `pair` rounded up. -/
theorem pipeCapacity_spec {c : Nat} (hc : pipeCapacity capacity = some c) :
    (∃ k ≤ 62, c = 2 ^ k) ∧ ∀ k, capacity ≤ 2 ^ k → c ≤ 2 ^ k := by
  simp only [pipeCapacity, nextPowerOfTwo] at hc
  split_ifs at hc with hsmall hlt hlt <;> obtain rfl := Option.some.inj hc
  · exact ⟨⟨0, by decide, rfl⟩, fun k _ => Nat.one_le_two_pow⟩
  · generalize hm : Nat.log2 (capacity - 1) + 1 = m at hlt ⊢
    have hround (k : Nat) (hk : capacity ≤ 2 ^ k) : m ≤ k := by
      have hlog : Nat.log2 (capacity - 1) < k := (Nat.log2_lt (by omega)).mpr (by omega)
      omega
    rcases Nat.lt_or_ge m 64 with hm64 | hm64
    · have hmod : 2 ^ m % usizeMod = 2 ^ m :=
        Nat.mod_eq_of_lt (Nat.pow_lt_pow_right (by decide) hm64)
      rw [hmod, Nat.max_eq_left Nat.one_le_two_pow] at hlt ⊢
      have hm63 : m < 63 := (Nat.pow_lt_pow_iff_right (by decide)).mp hlt
      exact ⟨⟨m, by omega, rfl⟩, fun k hk => Nat.pow_le_pow_right (by decide) (hround k hk)⟩
    · have hmod : 2 ^ m % usizeMod = 0 := Nat.mod_eq_zero_of_dvd (pow_dvd_pow 2 hm64)
      rw [hmod]
      exact ⟨⟨0, by decide, rfl⟩, fun k _ => Nat.one_le_two_pow⟩

theorem dirOk_pair {c : Nat} {uninit : End → Nat → UInt8} (hc : pipeCapacity capacity = some c)
    (hs : pair capacity uninit = some s) (e : End) : DirOk c s (fun _ => ⟨[], []⟩) e := by
  obtain ⟨⟨k, hk, hpow⟩, -⟩ := pipeCapacity_spec hc
  simp only [pair, hc, Option.map_some, Option.some.injEq] at hs
  subst hs
  have hhalf : HalfInv c (.new c (uninit e)) none none [] ⟨[], []⟩ :=
    { capacity := rfl
      ring := Ring.new (hk.trans (by decide)) hpow (uninit e)
      accepted := rfl
      writeOk := fun _ hcall => absurd hcall (Option.not_mem_none _)
      readOk := fun _ hcall => absurd hcall (Option.not_mem_none _)
      writeFits := by simp
      readFits := by simp
      eof := by simp
      brokenPipe := by simp }
  exact ⟨⟨[], hhalf⟩, fun hdropped => absurd hdropped Bool.false_ne_true⟩

/-- Both directions of a pair are byte streams, and what is accepted and not read is at most the
capacity, rounded up. -/
theorem duplex_faithful (capacity : Nat) (tr : List Act) (s : St) (h : End → Hist)
    (hrun : StreamRun capacity tr (s, h)) (e : End) :
    ∃ c, pipeCapacity capacity = some c ∧ (∀ k, capacity ≤ 2 ^ k → c ≤ 2 ^ k) ∧
      Faithful c (s.pipe e) (h e) := by
  obtain ⟨c, hc, hinv⟩ := hrun.hist_invariant
    (I := fun s h => ∃ c, pipeCapacity capacity = some c ∧ ∀ e, DirOk c s h e)
    (by
      rintro s ⟨uninit, hs⟩
      obtain ⟨c, hc, -⟩ := Option.map_eq_some_iff.mp hs
      exact ⟨c, hc, dirOk_pair hc hs⟩)
    (fun _ _ _ _ ⟨c, hc, hinv⟩ _ hst => ⟨c, hc, DirOk.step hinv hst⟩)
  obtain ⟨⟨contents, hhalf⟩, -⟩ := hinv e
  exact ⟨c, hc, (pipeCapacity_spec hc).2, hhalf.faithful⟩

end

/-- The left end writes more than fits, the right end reads a part, the next write goes around
the end of the array, and the left end is dropped. The right end reads what is left, then the
end of the stream, and cannot write. -/
def writeAndDrop : List Act :=
  [[.write .left [1, 2, 3, 4, 5]], .replicate 5 (.runWrite .left),
    [.read .right 2], .replicate 4 (.runRead .right),
    [.write .left [6, 7, 8]], .replicate 5 (.runWrite .left), [.dropTx .left, .dropRx .left],
    [.read .right 8], .replicate 4 (.runRead .right), [.read .right 1],
    .replicate 5 (.runRead .right), [.write .right [9], .runWrite .right]].flatten

theorem duplex_faithful_writeAndDrop :
    ∃ tr s h, StreamRun 3 tr (s, h) ∧
      (h .left).writes = [([1, 2, 3, 4, 5], .ok 4), ([6, 7, 8], .ok 2)] ∧
      (h .left).reads = [(2, .ok [1, 2]), (8, .ok [3, 4, 6, 7]), (1, .ok [])] ∧
      (h .right).writes = [([9], .brokenPipe)] ∧
      ∃ c, pipeCapacity 3 = some c ∧ (∀ k, 3 ≤ 2 ^ k → c ≤ 2 ^ k) ∧
        Faithful c (s.pipe .left) (h .left) := by
  have hexec : ((pair 3 fun _ _ => 0).bind fun s =>
      exec (withHist step upd) writeAndDrop (s, fun _ => ⟨[], []⟩)).map
        (fun p => ((p.2 .left).writes, (p.2 .left).reads, (p.2 .right).writes)) =
      some ([([1, 2, 3, 4, 5], .ok 4), ([6, 7, 8], .ok 2)],
        [(2, .ok [1, 2]), (8, .ok [3, 4, 6, 7]), (1, .ok [])], [([9], .brokenPipe)]) := by
    decide +kernel
  obtain ⟨⟨s, h⟩, hexec, heq⟩ := Option.map_eq_some_iff.mp hexec
  obtain ⟨s₀, hpair, hexec⟩ := Option.bind_eq_some_iff.mp hexec
  simp only [Prod.mk.injEq] at heq
  have hrun : StreamRun 3 _ (s, h) := Run.of_exec _ ⟨⟨_, hpair⟩, rfl⟩ hexec
  exact ⟨_, s, h, hrun, heq.1, heq.2.1, heq.2.2, duplex_faithful 3 _ s h hrun .left⟩

end Dtact.Stream
