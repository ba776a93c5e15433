import Dtact.Lib.Circular
import Dtact.Lib.SeqRing
import Dtact.Words

/-!
# The containers of the scheduler

Mailboxes and local queues are circular buffers, the warehouse is a ring with a sequence number per
slot. The operations run without interference: a retry would repeat itself, so the `Greater` branch
of the warehouse is a `Fault`. A warehouse value carries the proof that its slots are consistent;
`Warehouse.push_spec` and `Warehouse.pop_spec` say that no fault arises.
-/

namespace Dtact.Scheduler

open Circular SeqRing

def chunkSize : Nat := 32
def mailboxCapacity : Nat := 65536
def localQueueCapacity : Nat := 131072
def localQueueHighWatermark : Nat := localQueueCapacity - localQueueCapacity / 8
def warehouseCapacity : Nat := 32768

/-- Why an operation does not return: the panic of `park_in_warehouse`, a loop without end, or a
read of memory that was never written. -/
inductive Fault
  | overflow
  | diverges
  | uninit
deriving DecidableEq, Repr

/-- `TaskChunk`. `tasks` are the first `count` entries of the array. -/
structure TaskChunk where
  tasks : List Nat
  hopCount : Nat
  count_le : tasks.length ≤ chunkSize

def TaskChunk.count (c : TaskChunk) : Nat := c.tasks.length

/-- `TaskChunk::default()` -/
def TaskChunk.default : TaskChunk := ⟨[], 0, by decide⟩

def TaskChunk.single (task : Nat) : TaskChunk := ⟨[task], 0, by simp [chunkSize]⟩

/-- A chunk with `hop_count.saturating_add(1)`, a `u8`. -/
def TaskChunk.hop (chunk : TaskChunk) : TaskChunk :=
  { chunk with hopCount := min (chunk.hopCount + 1) 255 }

def tasksOf (l : List TaskChunk) : List Nat := l.flatMap TaskChunk.tasks

@[simp]
theorem tasksOf_nil : tasksOf [] = [] := rfl

@[simp]
theorem tasksOf_cons (c : TaskChunk) (l : List TaskChunk) :
    tasksOf (c :: l) = c.tasks ++ tasksOf l := rfl

@[simp]
theorem tasksOf_append (l l' : List TaskChunk) : tasksOf (l ++ l') = tasksOf l ++ tasksOf l' := by
  simp [tasksOf]

/-! ## Mailboxes -/

abbrev Mailbox := Buffer TaskChunk mailboxCapacity

def Mailbox.new : Mailbox := Buffer.empty TaskChunk.default (by decide)

/-- `Mailbox::push` -/
def Mailbox.push (m : Mailbox) (chunk : TaskChunk) : Except TaskChunk Mailbox :=
  if m.isFull then .error chunk else .ok (Buffer.push m chunk)

theorem Mailbox.push_ok {m m' : Mailbox} {chunk : TaskChunk} (h : m.push chunk = .ok m') :
    m'.contents = m.contents ++ [chunk] := by
  unfold Mailbox.push at h
  split at h
  · cases h
  · next hf =>
    cases h
    refine m.contents_push chunk ?_
    have hlt := m.len_lt
    have hne : m.len + 1 ≠ mailboxCapacity := fun h => hf (m.isFull_iff.mpr h)
    omega

theorem Mailbox.push_error {m : Mailbox} {chunk c : TaskChunk} (h : m.push chunk = .error c) :
    c = chunk := by
  unfold Mailbox.push at h
  split at h <;> cases h
  rfl

theorem Mailbox.length_lt (m : Mailbox) : m.contents.length < mailboxCapacity := by
  rw [m.length_contents]
  exact m.len_lt

/-! ## The warehouse -/

/-- The slots hold `l`. The counters and the sequence numbers are words. -/
def WarehouseHolds (backlog tail head : Nat) (seq : Nat → Nat) (chunk : Nat → Option TaskChunk)
    (l : List TaskChunk) : Prop :=
  ∃ v seq', Settled warehouseCapacity seq' chunk l v ∧ tail = v.enq % usizeMod ∧
    head = v.deq % usizeMod ∧ (∀ i, seq i = seq' i % usizeMod) ∧ backlog = l.length

/-- `Warehouse`, with `seq i` and `chunk i` for the slot `i`. -/
structure Warehouse where
  backlog : Nat
  tail : Nat
  head : Nat
  seq : Nat → Nat
  chunk : Nat → Option TaskChunk
  consistent : ∃ l, WarehouseHolds backlog tail head seq chunk l

namespace Warehouse

/-- `Warehouse::new`. Slots beyond the capacity are never accessed. -/
def new : Warehouse where
  backlog := 0
  tail := 0
  head := 0
  seq := fun i => i % usizeMod
  chunk := fun _ => none
  consistent := ⟨[], View.empty, id, Settled.empty fun _ _ => rfl, rfl, rfl, fun _ => rfl, rfl⟩

/-- The chunks in the warehouse, the oldest one first. -/
def contents (w : Warehouse) : List TaskChunk :=
  (List.range w.backlog).filterMap fun k => w.chunk ((w.head + k) % warehouseCapacity)

def isBusy (w : Warehouse) : Bool := w.backlog ≠ 0

theorem mod_slot (p k : Nat) :
    (p % usizeMod + k) % warehouseCapacity = (p + k) % warehouseCapacity := by
  simp only [usizeMod, warehouseCapacity]
  omega

theorem contents_eq {w : Warehouse} {l : List TaskChunk}
    (h : WarehouseHolds w.backlog w.tail w.head w.seq w.chunk l) : w.contents = l := by
  obtain ⟨v, seq', hs, _, hhead, _, hlen⟩ := h
  have hat : ∀ k ∈ List.range l.length, w.chunk ((w.head + k) % warehouseCapacity) = l[k]? := by
    intro k hk
    rw [hhead, mod_slot]
    exact hs.data_at (List.mem_range.mp hk)
  rw [contents, hlen, List.filterMap_congr hat]
  clear * -
  induction l with
  | nil => rfl
  | cons c l ih => simp [List.range_succ_eq_map, List.filterMap_map, ih]

theorem holds (w : Warehouse) :
    WarehouseHolds w.backlog w.tail w.head w.seq w.chunk w.contents := by
  obtain ⟨l, h⟩ := w.consistent
  rwa [contents_eq h]

theorem length_le (w : Warehouse) : w.contents.length ≤ warehouseCapacity := by
  obtain ⟨v, seq', hs, _, _, _, _⟩ := w.holds
  exact hs.length_le

/-- The signed difference a producer finds. -/
theorem diff_tail (w : Warehouse) :
    (w.contents.length < warehouseCapacity ∧
      diff (w.seq (w.tail % warehouseCapacity)) w.tail = 0) ∨
    (w.contents.length = warehouseCapacity ∧
      diff (w.seq (w.tail % warehouseCapacity)) w.tail < 0) := by
  obtain ⟨v, seq', hs, htail, _, hseq, _⟩ := w.holds
  have hslot : w.tail % warehouseCapacity = v.enq % warehouseCapacity := by
    rw [htail]
    exact mod_slot v.enq 0
  rw [hslot, hseq, htail]
  rcases Nat.lt_or_eq_of_le hs.length_le with hlt | heq
  · rw [hs.seq_enq hlt]
    exact Or.inl ⟨hlt, diff_self _⟩
  · have hlen := hs.length
    rw [hs.seq_enq_full heq (by decide), diff_mod_eq (by omega)
      (by simp only [warehouseCapacity] at heq; omega)]
    refine Or.inr ⟨heq, ?_⟩
    simp only [warehouseCapacity] at heq
    omega

/-- The signed difference a consumer finds, and the chunk. -/
theorem diff_head (w : Warehouse) :
    (w.contents = [] ∧
      diff (w.seq (w.head % warehouseCapacity)) (wrappingAdd w.head 1) < 0) ∨
    ∃ c l, w.contents = c :: l ∧ w.chunk (w.head % warehouseCapacity) = some c ∧
      diff (w.seq (w.head % warehouseCapacity)) (wrappingAdd w.head 1) = 0 := by
  obtain ⟨v, seq', hs, _, hhead, hseq, _⟩ := w.holds
  have hslot : w.head % warehouseCapacity = v.deq % warehouseCapacity := by
    rw [hhead]
    exact mod_slot v.deq 0
  rw [hslot, hseq, hhead, wrappingAdd_mod]
  cases hl : w.contents with
  | nil =>
    rw [hl] at hs
    rw [hs.seq_deq_nil (by decide), diff_mod_eq (by omega) (by omega)]
    exact Or.inl ⟨rfl, by omega⟩
  | cons c l =>
    rw [hl] at hs
    rw [hs.seq_deq (List.cons_ne_nil c l)]
    exact Or.inr ⟨c, l, rfl, hs.data_deq, diff_self _⟩

theorem holds_push {w : Warehouse} {c : TaskChunk}
    (hd : diff (w.seq (w.tail % warehouseCapacity)) w.tail = 0) :
    WarehouseHolds (w.backlog + 1) (wrappingAdd w.tail 1) w.head
      (Function.update w.seq (w.tail % warehouseCapacity) (wrappingAdd w.tail 1))
      (Function.update w.chunk (w.tail % warehouseCapacity) (some c)) (w.contents ++ [c]) := by
  have hlt : w.contents.length < warehouseCapacity := by
    rcases w.diff_tail with ⟨hlt, _⟩ | ⟨_, hneg⟩
    · exact hlt
    · omega
  obtain ⟨v, seq', hs, htail, hhead, hseq, hlen⟩ := w.holds
  have hslot : w.tail % warehouseCapacity = v.enq % warehouseCapacity := by
    rw [htail]
    exact mod_slot v.enq 0
  rw [hslot, htail, wrappingAdd_mod]
  refine ⟨(v.claimPush c).publish v.enq, _, hs.push hlt c, rfl, hhead, fun i => ?_,
    by simp [hlen]⟩
  by_cases hi : i = v.enq % warehouseCapacity
  · subst hi
    simp
  · simp [Function.update_of_ne hi, hseq]

theorem holds_pop {w : Warehouse} {c : TaskChunk} {l : List TaskChunk} (hl : w.contents = c :: l) :
    WarehouseHolds (w.backlog - 1) w.tail (wrappingAdd w.head 1)
      (Function.update w.seq (w.head % warehouseCapacity) (wrappingAdd w.head warehouseCapacity))
      w.chunk l := by
  obtain ⟨v, seq', hs, htail, hhead, hseq, hlen⟩ := w.holds
  rw [hl] at hs hlen
  have hslot : w.head % warehouseCapacity = v.deq % warehouseCapacity := by
    rw [hhead]
    exact mod_slot v.deq 0
  rw [hslot, hhead, wrappingAdd_mod, wrappingAdd_mod]
  refine ⟨v.claimPop.release v.deq, _, hs.pop, htail, rfl, fun i => ?_, by simp [hlen]⟩
  by_cases hi : i = v.deq % warehouseCapacity
  · subst hi
    simp
  · simp [Function.update_of_ne hi, hseq]

theorem contents_ne_nil_of_diff {w : Warehouse}
    (hd : diff (w.seq (w.head % warehouseCapacity)) (wrappingAdd w.head 1) = 0) :
    ∃ c l, w.contents = c :: l := by
  rcases w.diff_head with ⟨_, hneg⟩ | ⟨c, l, hl, _⟩
  · omega
  · exact ⟨c, l, hl⟩

/-- `Warehouse::push`. `Err` gives the chunk back. -/
def push (w : Warehouse) (chunk : TaskChunk) : Except Fault (Except TaskChunk Warehouse) :=
  let pos := w.tail
  let d := diff (w.seq (pos % warehouseCapacity)) pos
  if hd : d = 0 then
    .ok (.ok {
      backlog := w.backlog + 1
      tail := wrappingAdd pos 1
      head := w.head
      seq := Function.update w.seq (pos % warehouseCapacity) (wrappingAdd pos 1)
      chunk := Function.update w.chunk (pos % warehouseCapacity) (some chunk)
      consistent := ⟨_, holds_push hd⟩ })
  else if d < 0 then .ok (.error chunk)
  else .error .diverges

/-- `Warehouse::pop` -/
def pop (w : Warehouse) : Except Fault (Option (TaskChunk × Warehouse)) :=
  let pos := w.head
  let d := diff (w.seq (pos % warehouseCapacity)) (wrappingAdd pos 1)
  if hd : d = 0 then
    match w.chunk (pos % warehouseCapacity) with
    | none => .error .uninit
    | some chunk =>
      .ok (some (chunk, {
        backlog := w.backlog - 1
        tail := w.tail
        head := wrappingAdd pos 1
        seq := Function.update w.seq (pos % warehouseCapacity) (wrappingAdd pos warehouseCapacity)
        chunk := w.chunk
        consistent := by
          obtain ⟨c, l, hl⟩ := contents_ne_nil_of_diff hd
          exact ⟨l, holds_pop hl⟩ }))
  else if d < 0 then .ok none
  else .error .diverges

/-- A push succeeds unless the warehouse is full. -/
theorem push_spec (w : Warehouse) (c : TaskChunk) :
    (∃ w', w.push c = .ok (.ok w') ∧ w'.contents = w.contents ++ [c]) ∨
      (w.push c = .ok (.error c) ∧ w.contents.length = warehouseCapacity) := by
  rcases w.diff_tail with ⟨_, hd⟩ | ⟨hfull, hd⟩
  · refine Or.inl ⟨_, by rw [push, dif_pos hd], ?_⟩
    exact contents_eq (holds_push hd)
  · exact Or.inr ⟨by rw [push, dif_neg (by omega), if_pos hd], hfull⟩

/-- A pop takes the oldest chunk, if there is one. -/
theorem pop_spec (w : Warehouse) :
    (w.pop = .ok none ∧ w.contents = []) ∨
      ∃ c w', w.pop = .ok (some (c, w')) ∧ w.contents = c :: w'.contents := by
  rcases w.diff_head with ⟨hnil, hd⟩ | ⟨c, l, hl, hc, hd⟩
  · exact Or.inl ⟨by rw [pop, dif_neg (by omega), if_pos hd], hnil⟩
  · refine Or.inr ⟨c, _, by rw [pop, dif_pos hd]; simp only [hc]; rfl, ?_⟩
    rw [hl]
    exact congrArg _ (contents_eq (holds_pop hl)).symm

theorem contents_new : new.contents = [] := rfl

end Warehouse

end Dtact.Scheduler
