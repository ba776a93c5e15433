import Mathlib.Data.List.Infix
import Dtact.Lib.Transition
import Dtact.Scheduler.Containers

/-!
# A mailbox between two threads

One thread pushes while another one pops; a step is one load or store of an index or one access to a
slot. Each side works with the index of the other side as it was when it was loaded; it may have
moved on since, but only in the direction that does no harm.
-/

namespace Dtact.Scheduler.MailboxSpsc

open Circular Transition

/-! ## The calls -/

/-- The operation `push` performs next. -/
inductive PushPc
  | loadTail
  | loadHead (currentTail : Nat)
  | write (currentTail : Nat)
  | storeTail (currentTail : Nat)
deriving DecidableEq

theorem index_lt (i : Nat) : (i + 1) % mailboxCapacity < mailboxCapacity :=
  Nat.mod_lt _ (by decide)

/-- One operation of `push`, and how it goes on or what it returns. -/
def pushStep (m : Mailbox) (chunk : TaskChunk) :
    PushPc → Mailbox × (PushPc ⊕ Except TaskChunk Unit)
  | .loadTail => (m, .inl (.loadHead m.tail))
  | .loadHead currentTail =>
    let nextTail := (currentTail + 1) % mailboxCapacity
    if nextTail = m.head then (m, .inr (.error chunk)) else (m, .inl (.write currentTail))
  | .write currentTail =>
    ({ m with buf := Function.update m.buf currentTail chunk }, .inl (.storeTail currentTail))
  | .storeTail currentTail =>
    ({ m with tail := (currentTail + 1) % mailboxCapacity, tail_lt := index_lt currentTail },
      .inr (.ok ()))

/-- The operation `pop` performs next. -/
inductive PopPc
  | loadHead
  | loadTail (currentHead : Nat)
  | read (currentHead : Nat)
  | storeHead (currentHead : Nat) (chunk : TaskChunk)

def popStep (m : Mailbox) : PopPc → Mailbox × (PopPc ⊕ Option TaskChunk)
  | .loadHead => (m, .inl (.loadTail m.head))
  | .loadTail currentHead =>
    if currentHead = m.tail then (m, .inr none) else (m, .inl (.read currentHead))
  | .read currentHead => (m, .inl (.storeHead currentHead (m.buf currentHead)))
  | .storeHead currentHead chunk =>
    ({ m with head := (currentHead + 1) % mailboxCapacity, head_lt := index_lt currentHead },
      .inr (some chunk))

/-- A call of `push` is kept with its argument. -/
structure St where
  mailbox : Mailbox
  push : Option (TaskChunk × PushPc)
  pop : Option PopPc

def St.new : St := ⟨Mailbox.new, none, none⟩

/-- `push` and `pop` begin a call, `runPush` and `runPop` are its next operation. -/
inductive Act
  | push (chunk : TaskChunk)
  | pop
  | runPush
  | runPop

def goOn {Pc Ret : Type} : Pc ⊕ Ret → Option Pc
  | .inl pc => some pc
  | .inr _ => none

def step : Act → St → Option St
  | .push chunk, s =>
    match s.push with
    | none => some { s with push := some (chunk, .loadTail) }
    | some _ => none
  | .pop, s =>
    match s.pop with
    | none => some { s with pop := some .loadHead }
    | some _ => none
  | .runPush, s =>
    s.push.map fun (chunk, pc) =>
      let (mailbox, next) := pushStep s.mailbox chunk pc
      { s with mailbox, push := (goOn next).map (chunk, ·) }
  | .runPop, s =>
    s.pop.map fun pc =>
      let (mailbox, next) := popStep s.mailbox pc
      { s with mailbox, pop := goOn next }

/-! ## What the calls return -/

/-- A call of `push` that has returned; `unread` is the number of chunks that were in the mailbox
when it loaded the head. -/
structure Pushed where
  chunk : TaskChunk
  unread : Nat
  ret : Except TaskChunk Unit

/-- A call of `pop` that has returned; `unread` is taken when it loaded the tail. -/
structure Popped where
  unread : Nat
  ret : Option TaskChunk

/-- The calls that have returned, in this order, and the numbers for the ones that have not. -/
structure Hist where
  pushes : List Pushed
  pops : List Popped
  atHead : Nat
  atTail : Nat

def Hist.empty : Hist := ⟨[], [], 0, 0⟩

def Pushed.accepted (p : Pushed) : Option TaskChunk :=
  match p.ret with
  | .ok () => some p.chunk
  | .error _ => none

def Hist.accepted (h : Hist) : List TaskChunk := h.pushes.filterMap Pushed.accepted

def Hist.popped (h : Hist) : List TaskChunk := h.pops.filterMap Popped.ret

/-- The chunks that were accepted and not yet popped. -/
def Hist.unread (h : Hist) : Nat := h.accepted.length - h.popped.length

/-- The counts are taken at the loads of the other side's index. -/
def Hist.look (h : Hist) : PushPc ⊕ PopPc → Hist
  | .inl (.loadHead _) => { h with atHead := h.unread }
  | .inr (.loadTail _) => { h with atTail := h.unread }
  | _ => h

def Hist.addPush (h : Hist) (chunk : TaskChunk) : PushPc ⊕ Except TaskChunk Unit → Hist
  | .inl _ => h
  | .inr ret => { h with pushes := h.pushes ++ [⟨chunk, h.atHead, ret⟩] }

def Hist.addPop (h : Hist) : PopPc ⊕ Option TaskChunk → Hist
  | .inl _ => h
  | .inr ret => { h with pops := h.pops ++ [⟨h.atTail, ret⟩] }

def upd (a : Act) (s : St) (h : Hist) : Hist :=
  match a, s.push, s.pop with
  | .runPush, some (chunk, pc), _ =>
    (h.look (.inl pc)).addPush chunk (pushStep s.mailbox chunk pc).2
  | .runPop, _, some pc => (h.look (.inr pc)).addPop (popStep s.mailbox pc).2
  | _, _, _ => h

abbrev MailboxRun : List Act → St × Hist → Prop :=
  Run (initHist (· = St.new) Hist.empty) (withHist step upd) Free

/-! ## The queue -/

/-- The next operation of the producer writes the slot `i`. -/
def St.Writes (s : St) (i : Nat) : Prop := ∃ chunk, s.push = some (chunk, .write i)

/-- The next operation of the consumer reads the slot `i`. -/
def St.Reads (s : St) (i : Nat) : Prop := s.pop = some (.read i)

/-- The mailbox is a queue of at most 65535 chunks that loses none. -/
structure Lossless (s : St) (h : Hist) : Prop where
  inOrder : h.popped <+: h.accepted
  bounded : h.unread ≤ 65535
  apart : ∀ i, s.Writes i → ¬ s.Reads i
  /-- The unread chunks are in their slots, and no write is about to go there. -/
  kept : Holds mailboxCapacity s.mailbox.buf s.mailbox.head (h.accepted.drop h.popped.length)
  notOverwritten : ∀ i, s.Writes i → ∀ k < h.unread, (s.mailbox.head + k) % mailboxCapacity ≠ i
  full : ∀ p ∈ h.pushes, (p.ret = .error p.chunk ↔ p.unread = 65535) ∧
    ∀ chunk, p.ret = .error chunk → chunk = p.chunk
  empty : ∀ p ∈ h.pops, p.ret = none → p.unread = 0

section

variable {m : Mailbox} {pos : Nat} {contents : List TaskChunk}

/-- The mailbox holds `contents`, the first of them at position `pos`. -/
structure Ring (m : Mailbox) (pos : Nat) (contents : List TaskChunk) : Prop where
  head : m.head = pos % mailboxCapacity
  tail : m.tail = (pos + contents.length) % mailboxCapacity
  bounded : contents.length < mailboxCapacity
  holds : Holds mailboxCapacity m.buf pos contents

/-- The next tail meets the head when one slot is left. -/
theorem Ring.full_iff (h : Ring m pos contents) :
    (m.tail + 1) % mailboxCapacity = m.head ↔ contents.length = 65535 := by
  have hbounded := h.bounded
  rw [h.tail, h.head, Nat.mod_add_mod, Nat.add_assoc]
  constructor
  · intro heq
    by_contra hne
    have hlt : contents.length + 1 < mailboxCapacity := by
      unfold mailboxCapacity at *
      omega
    exact cells_ne (Nat.lt_add_of_pos_right (Nat.succ_pos _)) (Nat.add_lt_add_left hlt pos) heq.symm
  · intro heq
    rw [heq]
    exact Nat.add_mod_right pos mailboxCapacity

theorem Ring.empty_iff (h : Ring m pos contents) : m.head = m.tail ↔ contents = [] := by
  rw [h.tail, h.head]
  constructor
  · intro heq
    by_contra hne
    exact cells_ne (Nat.lt_add_of_pos_right (List.length_pos_iff.mpr hne))
      (Nat.add_lt_add_left h.bounded pos) heq
  · intro heq
    rw [heq]
    rfl

theorem Ring.write (h : Ring m pos contents) (chunk : TaskChunk)
    (hroom : contents.length + 1 < mailboxCapacity) :
    Ring { m with buf := Function.update m.buf m.tail chunk } pos contents where
  head := h.head
  tail := h.tail
  bounded := h.bounded
  holds := by
    intro k hk
    have hne : (pos + k) % mailboxCapacity ≠ m.tail := by
      rw [h.tail]
      exact cells_ne (Nat.add_lt_add_left hk pos) (by omega)
    exact (Function.update_of_ne hne ..).trans (h.holds k hk)

variable {chunk : TaskChunk} {atHead : Nat} {pc : PopPc}

theorem Ring.publish (h : Ring m pos contents) (hroom : contents.length + 1 < mailboxCapacity)
    (hchunk : m.buf m.tail = chunk) :
    Ring { m with tail := (m.tail + 1) % mailboxCapacity, tail_lt := index_lt m.tail } pos
      (contents ++ [chunk]) where
  head := h.head
  tail := by
    show (m.tail + 1) % mailboxCapacity = _
    rw [h.tail, Nat.mod_add_mod, List.length_append]
    rfl
  bounded := List.length_append ▸ hroom
  holds := h.holds.append fun k hk => by
    obtain rfl : k = 0 := Nat.lt_one_iff.mp hk
    rw [← hchunk, h.tail]
    rfl

theorem Ring.consume (h : Ring m pos (chunk :: contents)) :
    Ring { m with head := (m.head + 1) % mailboxCapacity, head_lt := index_lt m.head } (pos + 1)
      contents where
  head := by
    show (m.head + 1) % mailboxCapacity = _
    rw [h.head, Nat.mod_add_mod]
  tail := by rw [h.tail, List.length_cons, Nat.add_assoc, Nat.add_comm 1]
  bounded := Nat.lt_of_succ_lt h.bounded
  holds := h.holds.drop 1

theorem Ring.oldest (h : Ring m pos (chunk :: contents)) : m.buf m.head = chunk := by
  rw [h.head]
  exact h.holds 0 (Nat.succ_pos _)

/-! ## The invariant -/

/-- What a push knows. Nothing the consumer does changes it. -/
def PushOk (m : Mailbox) (len atHead : Nat) : TaskChunk × PushPc → Prop
  | (_, .loadTail) => True
  | (_, .loadHead currentTail) => currentTail = m.tail
  | (_, .write currentTail) =>
    currentTail = m.tail ∧ len + 1 < mailboxCapacity ∧ atHead ≠ 65535
  | (chunk, .storeTail currentTail) =>
    currentTail = m.tail ∧ len + 1 < mailboxCapacity ∧ atHead ≠ 65535 ∧
      m.buf currentTail = chunk

/-- What a pop knows. Nothing the producer does changes it. -/
def PopOk (head : Nat) (contents : List TaskChunk) : PopPc → Prop
  | .loadHead => True
  | .loadTail currentHead => currentHead = head
  | .read currentHead => currentHead = head ∧ contents ≠ []
  | .storeHead currentHead chunk => currentHead = head ∧ ∃ rest, contents = chunk :: rest

theorem PushOk.mono {m' : Mailbox} {len len' : Nat} {call : TaskChunk × PushPc}
    (h : PushOk m len atHead call) (htail : m'.tail = m.tail) (hbuf : m'.buf = m.buf)
    (hlen : len' ≤ len) : PushOk m' len' atHead call := by
  obtain ⟨chunk, pc⟩ := call
  cases pc with
  | loadTail => trivial
  | loadHead t => exact h.trans htail.symm
  | write t =>
    obtain ⟨ht, hroom, hat⟩ := h
    exact ⟨ht.trans htail.symm, by omega, hat⟩
  | storeTail t =>
    obtain ⟨ht, hroom, hat, hchunk⟩ := h
    exact ⟨ht.trans htail.symm, by omega, hat, hbuf ▸ hchunk⟩

theorem PopOk.append {head : Nat} (h : PopOk head contents pc) (more : List TaskChunk) :
    PopOk head (contents ++ more) pc := by
  cases pc with
  | loadHead => trivial
  | loadTail hd => exact h
  | read hd => exact ⟨h.1, List.append_ne_nil_of_left_ne_nil h.2 more⟩
  | storeHead hd chunk =>
    obtain ⟨hhd, rest, rfl⟩ := h
    exact ⟨hhd, rest ++ more, rfl⟩

def Pushed.Ok (p : Pushed) : Prop :=
  (p.ret = .error p.chunk ↔ p.unread = 65535) ∧ ∀ chunk, p.ret = .error chunk → chunk = p.chunk

def Popped.Ok (p : Popped) : Prop := p.ret = none → p.unread = 0

structure Inv (s : St) (contents : List TaskChunk) (h : Hist) : Prop where
  accepted : h.accepted = h.popped ++ contents
  ring : Ring s.mailbox h.popped.length contents
  pushOk : ∀ call ∈ s.push, PushOk s.mailbox contents.length h.atHead call
  popOk : ∀ pc ∈ s.pop, PopOk s.mailbox.head contents pc
  pushes : ∀ p ∈ h.pushes, p.Ok
  pops : ∀ p ∈ h.pops, p.Ok

variable {s s' : St} {h : Hist}

theorem Inv.unread (hinv : Inv s contents h) : h.unread = contents.length := by
  rw [Hist.unread, hinv.accepted, List.length_append, Nat.add_sub_cancel_left]

theorem Inv.lossless (hinv : Inv s contents h) : Lossless s h where
  inOrder := hinv.accepted ▸ List.prefix_append _ _
  bounded := by
    rw [hinv.unread]
    exact Nat.le_of_lt_succ hinv.ring.bounded
  apart := by
    rintro i ⟨chunk, hpush⟩ hpop
    obtain ⟨rfl, hroom, -⟩ := hinv.pushOk _ hpush
    obtain ⟨heq, hne⟩ := hinv.popOk _ hpop
    exact hne (hinv.ring.empty_iff.mp heq.symm)
  kept := by
    rw [hinv.accepted, List.drop_left]
    intro k hk
    rw [hinv.ring.head, Nat.mod_add_mod]
    exact hinv.ring.holds k hk
  notOverwritten := by
    rintro i ⟨chunk, hpush⟩ k hk
    obtain ⟨rfl, hroom, -⟩ := hinv.pushOk _ hpush
    rw [hinv.unread] at hk
    rw [hinv.ring.head, hinv.ring.tail, Nat.mod_add_mod]
    exact cells_ne (Nat.add_lt_add_left hk _) (by omega)
  full := hinv.pushes
  empty := hinv.pops

/-! ### The steps of a push -/

variable {chunk : TaskChunk}

/-- A push goes on; the counts it has taken are not part of the queue. -/
theorem Inv.pushMore {pc : PushPc} (hinv : Inv s contents h)
    (hpc : PushOk s.mailbox contents.length atHead (chunk, pc)) :
    Inv { s with push := some (chunk, pc) } contents { h with atHead } where
  accepted := hinv.accepted
  ring := hinv.ring
  pushOk := fun _ hcall => Option.mem_some.mp hcall ▸ hpc
  popOk := hinv.popOk
  pushes := hinv.pushes
  pops := hinv.pops

theorem Hist.accepted_addPush (h : Hist) (chunk : TaskChunk) (ret : Except TaskChunk Unit) :
    (h.addPush chunk (.inr ret)).accepted =
      h.accepted ++ (Pushed.accepted ⟨chunk, h.atHead, ret⟩).toList := by
  rw [Hist.accepted, Hist.addPush, List.filterMap_append]
  rfl

theorem Hist.pushes_addPush (h : Hist) (hok : ∀ p ∈ h.pushes, p.Ok) {ret : Except TaskChunk Unit}
    (hret : Pushed.Ok ⟨chunk, h.atHead, ret⟩) :
    ∀ p ∈ (h.addPush chunk (.inr ret)).pushes, p.Ok := by
  intro p hp
  rcases List.mem_append.mp hp with hp | hp
  · exact hok p hp
  · exact List.mem_singleton.mp hp ▸ hret

/-- A push that finds the mailbox full gives the chunk back. -/
theorem Inv.pushFull (hinv : Inv s contents h) (hfull : atHead = 65535) :
    Inv { s with push := none } contents
      (Hist.addPush { h with atHead } chunk (.inr (.error chunk))) where
  accepted := by
    rw [Hist.accepted_addPush]
    exact (List.append_nil _).trans hinv.accepted
  ring := hinv.ring
  pushOk := fun call hcall => absurd hcall (Option.not_mem_none _)
  popOk := hinv.popOk
  pushes := Hist.pushes_addPush { h with atHead } hinv.pushes
    ⟨iff_of_true rfl hfull, fun c hc => by cases hc; rfl⟩
  pops := hinv.pops

/-- The store of the tail: the chunk has been accepted. -/
theorem Inv.pushStore (hinv : Inv s contents h) (hroom : contents.length + 1 < mailboxCapacity)
    (hchunk : s.mailbox.buf s.mailbox.tail = chunk) (hat : h.atHead ≠ 65535) :
    Inv { s with
        mailbox := (pushStep s.mailbox chunk (.storeTail s.mailbox.tail)).1
        push := none } (contents ++ [chunk]) (h.addPush chunk (.inr (.ok ()))) where
  accepted := by
    rw [Hist.accepted_addPush, hinv.accepted]
    exact List.append_assoc ..
  ring := hinv.ring.publish hroom hchunk
  pushOk := fun call hcall => absurd hcall (Option.not_mem_none _)
  popOk := fun pc hpc => (hinv.popOk pc hpc).append _
  pushes := h.pushes_addPush hinv.pushes ⟨iff_of_false nofun hat, nofun⟩
  pops := hinv.pops

theorem Inv.pushStep {pc : PushPc} (hinv : Inv s contents h) (hpush : s.push = some (chunk, pc)) :
    ∃ contents', Inv
      { s with
        mailbox := (pushStep s.mailbox chunk pc).1
        push := (goOn (MailboxSpsc.pushStep s.mailbox chunk pc).2).map (chunk, ·) }
      contents' ((h.look (.inl pc)).addPush chunk (MailboxSpsc.pushStep s.mailbox chunk pc).2) := by
  have hpc := hinv.pushOk _ hpush
  cases pc with
  | loadTail => exact ⟨contents, hinv.pushMore rfl⟩
  | loadHead currentTail =>
    refine ⟨contents, ?_⟩
    obtain rfl := hpc
    simp only [MailboxSpsc.pushStep, Hist.look, hinv.unread]
    split
    · next hfull => exact hinv.pushFull (hinv.ring.full_iff.mp hfull)
    · next hroom =>
      have hne : contents.length ≠ 65535 := fun hlen => hroom (hinv.ring.full_iff.mpr hlen)
      have hbounded := hinv.ring.bounded
      exact hinv.pushMore ⟨rfl, by unfold mailboxCapacity at *; omega, hne⟩
  | write currentTail =>
    refine ⟨contents, ?_⟩
    obtain ⟨rfl, hroom, hat⟩ := hpc
    exact { hinv with
      ring := hinv.ring.write chunk hroom
      pushOk := fun call hcall => Option.mem_some.mp hcall ▸
        ⟨rfl, hroom, hat, Function.update_self ..⟩ }
  | storeTail currentTail =>
    obtain ⟨rfl, hroom, hat, hchunk⟩ := hpc
    exact ⟨contents ++ [chunk], hinv.pushStore hroom hchunk hat⟩

/-! ### The steps of a pop -/

theorem Inv.popMore {atTail : Nat} (hinv : Inv s contents h)
    (hpc : PopOk s.mailbox.head contents pc) :
    Inv { s with pop := some pc } contents { h with atTail } where
  accepted := hinv.accepted
  ring := hinv.ring
  pushOk := hinv.pushOk
  popOk := fun _ hpc' => Option.mem_some.mp hpc' ▸ hpc
  pushes := hinv.pushes
  pops := hinv.pops

theorem Hist.popped_addPop (h : Hist) (ret : Option TaskChunk) :
    (h.addPop (.inr ret)).popped = h.popped ++ ret.toList := by
  rw [Hist.popped, Hist.addPop, List.filterMap_append]
  cases ret <;> rfl

theorem Hist.pops_addPop (h : Hist) (hok : ∀ p ∈ h.pops, p.Ok) {ret : Option TaskChunk}
    (hret : Popped.Ok ⟨h.atTail, ret⟩) : ∀ p ∈ (h.addPop (.inr ret)).pops, p.Ok := by
  intro p hp
  rcases List.mem_append.mp hp with hp | hp
  · exact hok p hp
  · exact List.mem_singleton.mp hp ▸ hret

theorem Inv.popEmpty {atTail : Nat} (hinv : Inv s contents h) (hempty : atTail = 0) :
    Inv { s with pop := none } contents (Hist.addPop { h with atTail } (.inr none)) := by
  have hpopped : (Hist.addPop { h with atTail } (.inr none)).popped = h.popped :=
    (Hist.popped_addPop ..).trans (List.append_nil _)
  exact
    { accepted := hpopped.symm ▸ hinv.accepted
      ring := hpopped.symm ▸ hinv.ring
      pushOk := hinv.pushOk
      popOk := fun pc hpc => absurd hpc (Option.not_mem_none _)
      pushes := hinv.pushes
      pops := Hist.pops_addPop { h with atTail } hinv.pops fun _ => hempty }

/-- The store of the head: the oldest chunk has been popped. -/
theorem Inv.popStore {rest : List TaskChunk} (hinv : Inv s (chunk :: rest) h) :
    Inv { s with
        mailbox := (popStep s.mailbox (.storeHead s.mailbox.head chunk)).1
        pop := none } rest (h.addPop (.inr (some chunk))) := by
  have hpopped : (h.addPop (.inr (some chunk))).popped = h.popped ++ [chunk] :=
    Hist.popped_addPop ..
  have hlen : (h.addPop (.inr (some chunk))).popped.length = h.popped.length + 1 := by
    rw [hpopped, List.length_append]
    rfl
  exact
    { accepted := by
        rw [hpopped, List.append_assoc]
        exact hinv.accepted
      ring := hlen ▸ hinv.ring.consume
      pushOk := fun call hcall => (hinv.pushOk call hcall).mono rfl rfl (Nat.le_succ _)
      popOk := fun pc hpc => absurd hpc (Option.not_mem_none _)
      pushes := hinv.pushes
      pops := h.pops_addPop hinv.pops nofun }

theorem Inv.popStep (hinv : Inv s contents h) (hpop : s.pop = some pc) :
    ∃ contents', Inv
      { s with
        mailbox := (popStep s.mailbox pc).1
        pop := goOn (MailboxSpsc.popStep s.mailbox pc).2 }
      contents' ((h.look (.inr pc)).addPop (MailboxSpsc.popStep s.mailbox pc).2) := by
  have hpc := hinv.popOk _ hpop
  cases pc with
  | loadHead => exact ⟨contents, hinv.popMore rfl⟩
  | loadTail currentHead =>
    refine ⟨contents, ?_⟩
    obtain rfl := hpc
    simp only [MailboxSpsc.popStep, Hist.look, hinv.unread]
    split
    · next hempty =>
      exact hinv.popEmpty (congrArg List.length (hinv.ring.empty_iff.mp hempty))
    · next hsome =>
      exact hinv.popMore ⟨rfl, fun hnil => hsome (hinv.ring.empty_iff.mpr hnil)⟩
  | read currentHead =>
    refine ⟨contents, ?_⟩
    obtain ⟨rfl, hne⟩ := hpc
    obtain ⟨oldest, rest, rfl⟩ := List.exists_cons_of_ne_nil hne
    exact hinv.popMore ⟨rfl, rest, by rw [hinv.ring.oldest]⟩
  | storeHead currentHead chunk =>
    obtain ⟨rfl, rest, rfl⟩ := hpc
    exact ⟨rest, hinv.popStore⟩

/-! ## Whole runs -/

theorem inv_new : Inv St.new [] Hist.empty where
  accepted := rfl
  ring := ⟨rfl, rfl, by decide, fun k hk => absurd hk (Nat.not_lt_zero k)⟩
  pushOk := fun call hcall => absurd hcall (Option.not_mem_none _)
  popOk := fun pc hpc => absurd hpc (Option.not_mem_none _)
  pushes := fun p hp => absurd hp List.not_mem_nil
  pops := fun p hp => absurd hp List.not_mem_nil

theorem Inv.step {a : Act} (hinv : Inv s contents h) (hst : step a s = some s') :
    ∃ contents', Inv s' contents' (upd a s h) := by
  cases a with
  | push chunk =>
    simp only [MailboxSpsc.step] at hst
    split at hst
    · cases hst
      exact ⟨contents, hinv.pushMore trivial⟩
    · cases hst
  | pop =>
    simp only [MailboxSpsc.step] at hst
    split at hst
    · cases hst
      exact ⟨contents, hinv.popMore trivial⟩
    · cases hst
  | runPush =>
    obtain ⟨⟨chunk, pc⟩, hpush, rfl⟩ := Option.map_eq_some_iff.mp hst
    simp only [upd, hpush]
    exact hinv.pushStep hpush
  | runPop =>
    obtain ⟨pc, hpop, rfl⟩ := Option.map_eq_some_iff.mp hst
    simp only [upd, hpop]
    exact hinv.popStep hpop

/-- **The mailbox loses nothing.** In every state of every run of one producer and one consumer. -/
theorem mailbox_lossless (tr : List Act) (s : St) (h : Hist) (hrun : MailboxRun tr (s, h)) :
    Lossless s h := by
  obtain ⟨contents, hinv⟩ := hrun.hist_invariant
    (I := fun s h => ∃ contents, Inv s contents h)
    (by
      rintro s rfl
      exact ⟨[], inv_new⟩)
    (fun _ _ _ _ ⟨_, hinv⟩ _ hst => hinv.step hst)
  exact hinv.lossless

end

/-- A pop finds nothing. Then a pop runs while the second of two chunks is being pushed. -/
def overlapping : List Act :=
  [[.pop, .runPop, .runPop], [.push (.single 1)], .replicate 4 .runPush,
    [.push (.single 2), .runPush, .pop, .runPop, .runPush, .runPop, .runPush, .runPop, .runPop,
      .runPush]].flatten

theorem mailbox_lossless_overlapping :
    ∃ tr s h, MailboxRun tr (s, h) ∧ h.accepted.map TaskChunk.tasks = [[1], [2]] ∧
      h.popped.map TaskChunk.tasks = [[1]] ∧ h.pops.map Popped.unread = [0, 1] ∧ Lossless s h := by
  obtain ⟨⟨s, h⟩, hrun, heq⟩ : ∃ p, MailboxRun overlapping.reverse p ∧
      p.2.accepted.map TaskChunk.tasks = [[1], [2]] ∧ p.2.popped.map TaskChunk.tasks = [[1]] ∧
      p.2.pops.map Popped.unread = [0, 1] :=
    Run.exists_of_exec overlapping (St.new, Hist.empty) ⟨rfl, rfl⟩ (by decide +kernel)
  exact ⟨_, s, h, hrun, heq.1, heq.2.1, heq.2.2, mailbox_lossless _ s h hrun⟩

end Dtact.Scheduler.MailboxSpsc
