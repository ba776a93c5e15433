import Dtact.Context
import Dtact.Lib.Tickets
import Dtact.Lib.Transition
import Dtact.Scheduler.Containers
import Dtact.Util.BoundedQueue.Mpmc

/-!
# The warehouse under concurrency

Any number of threads call `Warehouse::push` and `Warehouse::pop`; every atomic operation and every
access to a slot is a step. The slots follow the protocol of `BoundedMpmcQueue`, but a thread that
loses a CAS loads the counter afresh, and a call goes on to change `backlog`.

Result: `warehouse_mpmc`. A chunk whose push returned `Ok` is resident or with the one `pop` that
claimed it, `push` gives its chunk back only when the slot has not been released, and when no call
is in progress `backlog` is the number of resident chunks.
-/

namespace Dtact.Scheduler.WarehouseMpmc

open Transition SeqRing
open BoundedQueue (Ret)
open BoundedQueue.BoundedQueueLemmas (inv_quiet inv_run)

/-! ## The calls -/

structure Shared where
  backlog : Nat
  tail : Nat
  head : Nat
  seq : Nat → Nat
  chunk : Nat → Option TaskChunk

/-- `Warehouse::new`. Slots beyond the capacity are never accessed. -/
def Shared.new : Shared := ⟨0, 0, 0, id, fun _ => none⟩

def Shared.setBacklog (w : Shared) (backlog : Nat) : Shared := { w with backlog }

/-- `backlog.fetch_add(1)` -/
def Shared.fetchAdd (w : Shared) : Shared := w.setBacklog ((w.backlog + 1) % u32Mod)

/-- `backlog.fetch_sub(1)` -/
def Shared.fetchSub (w : Shared) : Shared := w.setBacklog ((w.backlog + (u32Mod - 1)) % u32Mod)

/-- Where a thread is, named after the operation it performs next: on `tail` or `head`, on the
sequence word or the chunk of the slot, or on `backlog`. -/
inductive Pc
  | idle
  | pushLoad (chunk : TaskChunk)
  | pushSeq (chunk : TaskChunk) (pos : Nat)
  | pushCas (chunk : TaskChunk) (pos : Nat)
  | pushWrite (chunk : TaskChunk) (pos : Nat)
  | pushStore (pos : Nat)
  | pushBacklog
  | popLoad
  | popSeq (pos : Nat)
  | popCas (pos : Nat)
  | popRead (pos : Nat)
  | popStore (pos : Nat) (chunk : Option TaskChunk)
  | popBacklog (chunk : Option TaskChunk)
  | done (r : Ret TaskChunk)

/-- One step of a call. `spurious` makes a `compare_exchange_weak` fail. -/
def pcStep (spurious : Bool) (w : Shared) : Pc → Option (Pc × Shared)
  | .idle => none
  | .pushLoad chunk => some (.pushSeq chunk w.tail, w)
  | .pushSeq chunk pos =>
    let d := diff (w.seq (pos % warehouseCapacity)) pos
    if d = 0 then some (.pushCas chunk pos, w)
    else if d < 0 then some (.done (.full chunk), w)
    else some (.pushLoad chunk, w)
  | .pushCas chunk pos =>
    if w.tail = pos ∧ spurious = false then
      some (.pushWrite chunk pos, { w with tail := wrappingAdd pos 1 })
    else some (.pushLoad chunk, w)
  | .pushWrite chunk pos =>
    some (.pushStore pos,
      { w with chunk := Function.update w.chunk (pos % warehouseCapacity) (some chunk) })
  | .pushStore pos =>
    some (.pushBacklog,
      { w with seq := Function.update w.seq (pos % warehouseCapacity) (wrappingAdd pos 1) })
  | .pushBacklog => some (.done .ok, w.fetchAdd)
  | .popLoad => some (.popSeq w.head, w)
  | .popSeq pos =>
    let d := diff (w.seq (pos % warehouseCapacity)) (wrappingAdd pos 1)
    if d = 0 then some (.popCas pos, w)
    else if d < 0 then some (.done .empty, w)
    else some (.popLoad, w)
  | .popCas pos =>
    if w.head = pos ∧ spurious = false then
      some (.popRead pos, { w with head := wrappingAdd pos 1 })
    else some (.popLoad, w)
  | .popRead pos => some (.popStore pos (w.chunk (pos % warehouseCapacity)), w)
  | .popStore pos chunk =>
    some (.popBacklog chunk,
      { w with
        seq := Function.update w.seq (pos % warehouseCapacity)
          (wrappingAdd pos warehouseCapacity) })
  | .popBacklog chunk => some (.done (.ofRead chunk), w.fetchSub)
  | .done _ => none

def Shared.isBusy (w : Shared) : Bool := w.backlog ≠ 0

structure St where
  shared : Shared
  threads : Nat → Pc

def St.init : St := ⟨.new, fun _ => .idle⟩

/-- `push` and `pop` begin a call, `run` is the next step of a thread. -/
inductive Act
  | push (t : Nat) (chunk : TaskChunk)
  | pop (t : Nat)
  | run (t : Nat) (spurious : Bool)

def Pc.ready : Pc → Bool
  | .idle | .done _ => true
  | _ => false

def step : Act → St → Option St
  | .push t chunk, s =>
    if (s.threads t).ready then
      some { s with threads := Function.update s.threads t (.pushLoad chunk) }
    else none
  | .pop t, s =>
    if (s.threads t).ready then some { s with threads := Function.update s.threads t .popLoad }
    else none
  | .run t spurious, s =>
    (pcStep spurious s.shared (s.threads t)).map fun r =>
      ⟨r.2, Function.update s.threads t r.1⟩

/-! ## The ring inside -/

/-- The slots and counters without `backlog`. -/
def Shared.ring (w : Shared) : BoundedQueue.Queue TaskChunk := ⟨w.seq, w.chunk, w.tail, w.head⟩

theorem Shared.ring_setBacklog (w : Shared) (n : Nat) : (w.setBacklog n).ring = w.ring := rfl

theorem Shared.tail_setBacklog (w : Shared) (n : Nat) : (w.setBacklog n).tail = w.tail := rfl

/-- Where a thread is in the protocol of the ring. -/
def Pc.ring : Pc → BoundedQueue.Pc TaskChunk
  | .idle => .idle
  | .pushLoad chunk => .pushLoad chunk
  | .pushSeq chunk pos => .pushSeq chunk pos
  | .pushCas chunk pos => .pushCas chunk pos
  | .pushWrite chunk pos => .pushWrite chunk pos
  | .pushStore pos => .pushStore pos
  | .pushBacklog => .done .ok
  | .popLoad => .popLoad
  | .popSeq pos => .popSeq pos
  | .popCas pos => .popCas pos
  | .popRead pos => .popRead pos
  | .popStore pos chunk => .popStore pos chunk
  | .popBacklog chunk => .done (.ofRead chunk)
  | .done r => .done r

def St.ring (s : St) : BoundedQueue.St TaskChunk := ⟨s.shared.ring, fun t => (s.threads t).ring⟩

/-! ## The history -/

structure Hist where
  /-- The history of the ring: `pushed` are published, `popped` are released. -/
  ring : BoundedQueue.Hist TaskChunk
  /-- The chunk of a thread's last `push`. -/
  arg : Nat → Option TaskChunk
  added : List Nat
  /-- The pops that have returned a chunk, with the chunk. -/
  returned : List (Nat × Ret TaskChunk)

def Hist.empty : Hist := ⟨.empty, fun _ => none, [], []⟩

def upd (a : Act) (s : St) (h : Hist) : Hist :=
  match a with
  | .push t chunk => { h with arg := Function.update h.arg t (some chunk) }
  | .pop _ => h
  | .run t spurious =>
    let h := { h with ring := BoundedQueue.upd (.run t spurious) s.ring h.ring }
    match s.threads t with
    | .pushBacklog => { h with added := h.ring.claim t :: h.added }
    | .popBacklog chunk => { h with returned := (h.ring.claim t, .ofRead chunk) :: h.returned }
    | _ => h

/-! ## The properties -/

/-- A `push` that has claimed its position. -/
def Pc.pushing : Pc → Bool
  | .pushWrite .. | .pushStore _ | .pushBacklog => true
  | _ => false

/-- A `pop` that has claimed its position. -/
def Pc.popping : Pc → Bool
  | .popRead _ | .popStore .. | .popBacklog _ => true
  | _ => false

/-- The positions claimed by the threads that are where `f` says. -/
def holding (f : Pc → Bool) (threads : Nat → Pc) (claim : Nat → Nat) (t : Nat) : Option Nat :=
  if f (threads t) then some (claim t) else none

/-- The chunk is in the slot of position `k`, published and not claimed by a `pop`. -/
def Resident (w : Shared) (k : Nat) (chunk : TaskChunk) : Prop :=
  w.head ≤ k ∧ k < w.tail ∧ w.seq (k % warehouseCapacity) = k + 1 ∧
    w.chunk (k % warehouseCapacity) = some chunk

structure WarehouseOk (s : St) (h : Hist) : Prop where
  /-- Each position claimed by a `pop` belongs to one call, in progress or returned. -/
  consumers : Tickets h.ring.pops (h.returned.map Prod.fst)
    (holding Pc.popping s.threads h.ring.claim)
  kept : ∀ k ∈ h.added, ∃ chunk, h.ring.pushes[k]? = some chunk ∧
    ((k, .value chunk) ∈ h.returned ∨
      (∃ t, holding Pc.popping s.threads h.ring.claim t = some k) ∨ Resident s.shared k chunk)
  /-- What a `pop` returned was pushed at its position. -/
  origin : ∀ k r, (k, r) ∈ h.returned → ∃ chunk, h.ring.pushes[k]? = some chunk ∧ r = .value chunk
  /-- A `pop` reads a slot that is published for its position. -/
  reads : ∀ t pos, s.threads t = .popRead pos →
    s.shared.seq (pos % warehouseCapacity) = pos + 1 ∧ h.ring.claim t = pos ∧
      ∃ chunk, h.ring.pushes[pos]? = some chunk ∧
        s.shared.chunk (pos % warehouseCapacity) = some chunk
  /-- A refused `push` gives its own chunk back, and the lap before has not been
  released. -/
  refused : ∀ t spurious s' chunk, step (.run t spurious) s = some s' →
    s'.threads t = .done (.full chunk) → h.arg t = some chunk ∧
      ∃ pos, s.threads t = .pushSeq chunk (pos + warehouseCapacity) ∧
        ∀ r, (pos, r) ∉ h.ring.popped
  /-- Without a call in progress `backlog` is exact. -/
  settled : (∀ t, (s.threads t).ready = true) →
    s.shared.backlog = s.shared.tail - s.shared.head ∧ s.shared.head ≤ s.shared.tail ∧
      (s.shared.isBusy = true ↔ ∃ k chunk, Resident s.shared k chunk)

/-- The positions of this lap and of the next are below `2 ^ 63`. -/
def PosBelow (s : St) (_ : Act) : Prop := s.shared.tail + warehouseCapacity < 2 ^ 63

/-! ## A step is a step of the ring, or the ring stands still -/

/-- The thread claims nothing and has no position. -/
def Pc.atRest (pc : Pc) : Prop :=
  (∃ chunk, pc = .pushLoad chunk) ∨ pc = .popLoad ∨ ∃ r, pc.ring = .done r

variable {spurious : Bool} {pc : Pc} {s s' : St} {h : Hist} {v : View TaskChunk} {a : Act} {t : Nat}

theorem pcStep_ring {w w' : Shared} {pc' : Pc} (h : pcStep spurious w pc = some (pc', w')) :
    BoundedQueue.pcStep warehouseCapacity spurious w.ring pc.ring = some (pc'.ring, w'.ring) ∨
      w'.ring = w.ring ∧ pc'.atRest ∧
        ∀ (s : St) t hist, s.shared = w → s.threads t = pc →
          BoundedQueue.upd (.run t spurious) s.ring hist = hist := by
  cases pc with
  | idle | done r => cases h
  | pushSeq chunk pos | popSeq pos =>
    left
    simp only [pcStep] at h
    split at h
    · next hd =>
      cases h
      simp [Pc.ring, BoundedQueue.pcStep, Shared.ring, hd]
    · next hd =>
      split at h <;> cases h <;> next hlt =>
        simp [Pc.ring, BoundedQueue.pcStep, Shared.ring, hd, hlt]
  | pushCas chunk pos | popCas pos =>
    simp only [pcStep] at h
    split at h <;> cases h
    · next hwin => exact .inl (by simp [Pc.ring, BoundedQueue.pcStep, Shared.ring, hwin])
    · next hlost =>
      refine .inr ⟨rfl, by simp [Pc.atRest], fun s t hist hw ht => ?_⟩
      subst hw
      simp [BoundedQueue.upd, St.ring, ht, Pc.ring, Shared.ring, hlost]
  | pushBacklog | popBacklog chunk =>
    cases h
    refine .inr ⟨w.ring_setBacklog _, by simp [Pc.atRest, Pc.ring], fun s t hist _ ht => ?_⟩
    simp [BoundedQueue.upd, St.ring, ht, Pc.ring]
  | _ =>
    simp only [pcStep, Option.some.injEq, Prod.mk.injEq] at h
    obtain ⟨rfl, rfl⟩ := h
    left
    simp only [Pc.ring, BoundedQueue.pcStep, Shared.ring]

theorem ring_update (w : Shared) (threads : Nat → Pc) (t : Nat) (pc : Pc) :
    St.ring ⟨w, Function.update threads t pc⟩ =
      ⟨w.ring, Function.update (fun u => (threads u).ring) t pc.ring⟩ := by
  simp only [St.ring, Function.update_apply, apply_ite Pc.ring, BoundedQueue.St.mk.injEq, true_and]
  funext u
  rw [Function.update_apply]

theorem upd_ring (t : Nat) (spurious : Bool) (s : St) (h : Hist) :
    (upd (.run t spurious) s h).ring = BoundedQueue.upd (.run t spurious) s.ring h.ring := by
  simp only [upd]
  split <;> rfl

theorem ring_step (hi : BoundedQueue.Inv warehouseCapacity s.ring h.ring v) (hb : v.enq < 2 ^ 63)
    (hs : step a s = some s') :
    ∃ v', BoundedQueue.Inv warehouseCapacity s'.ring (upd a s h).ring v' := by
  have rest {t : Nat} {pc : Pc} {w : Shared} (hw : w.ring = s.shared.ring) (hpc : pc.atRest) :
      BoundedQueue.Inv warehouseCapacity (St.ring ⟨w, Function.update s.threads t pc⟩)
        h.ring v := by
    rw [ring_update, hw]
    refine inv_quiet hi ?_ ?_
    · rcases hpc with ⟨_, rfl⟩ | rfl | ⟨_, hpc⟩
      · trivial
      · trivial
      · rw [hpc]
        trivial
    · rcases hpc with ⟨_, rfl⟩ | rfl | ⟨_, hpc⟩
      · simp [Pc.ring, BoundedQueue.Pc.holds]
      · simp [Pc.ring, BoundedQueue.Pc.holds]
      · simp [hpc, BoundedQueue.Pc.holds]
  cases a with
  | push t chunk =>
    simp only [step] at hs
    split at hs <;> cases hs
    exact ⟨v, rest rfl (.inl ⟨chunk, rfl⟩)⟩
  | pop t =>
    simp only [step] at hs
    split at hs <;> cases hs
    exact ⟨v, rest rfl (.inr (.inl rfl))⟩
  | run t spurious =>
    simp only [step, Option.map_eq_some_iff] at hs
    obtain ⟨⟨pc, w⟩, hpc, rfl⟩ := hs
    rw [upd_ring]
    rcases pcStep_ring hpc with hring | ⟨hw, hrest, hupd⟩
    · refine inv_run hi (by decide) (by unfold BoundedQueue.Allocatable; decide) hb ?_
      rw [ring_update]
      simp only [BoundedQueue.step, Option.map_eq_some_iff]
      exact ⟨_, hring, rfl⟩
    · rw [hupd s t h.ring rfl rfl]
      exact ⟨v, rest hw hrest⟩

/-! ## Claimed positions and the counter -/

/-- The chunk a `push` has not placed yet. -/
def Pc.arg : Pc → Option TaskChunk
  | .pushLoad chunk | .pushSeq chunk _ | .pushCas chunk _ => some chunk
  | _ => none

/-- What the calls have left behind, beside the ring. -/
structure Tally (s : St) (h : Hist) : Prop where
  producers : Tickets h.ring.pushes.length h.added (holding Pc.pushing s.threads h.ring.claim)
  consumers : Tickets h.ring.pops (h.returned.map Prod.fst)
    (holding Pc.popping s.threads h.ring.claim)
  published : ∀ k ∈ h.added, k ∈ h.ring.pushed
  entering : ∀ t, s.threads t = .pushBacklog → h.ring.claim t ∈ h.ring.pushed
  released : ∀ x ∈ h.returned, x ∈ h.ring.popped
  leaving : ∀ t chunk, s.threads t = .popBacklog chunk →
    (h.ring.claim t, .ofRead chunk) ∈ h.ring.popped
  backlog : (s.shared.backlog + h.returned.length) % u32Mod = h.added.length % u32Mod
  backlog_lt : s.shared.backlog < u32Mod
  arg : ∀ t chunk, (s.threads t).arg = some chunk → h.arg t = some chunk

theorem holding_update (f : Pc → Bool) (threads : Nat → Pc) (claim : Nat → Nat) (t : Nat) (pc : Pc)
    (k : Nat) :
    holding f (Function.update threads t pc) (Function.update claim t k) =
      Function.update (holding f threads claim) t (if f pc then some k else none) := by
  funext u
  rcases eq_or_ne u t with rfl | hne
  · simp [holding]
  · simp [holding, hne]

theorem holding_move (f : Pc → Bool) (threads : Nat → Pc) (claim : Nat → Nat) (t : Nat) (pc : Pc) :
    holding f (Function.update threads t pc) claim =
      Function.update (holding f threads claim) t (if f pc then some (claim t) else none) := by
  simpa using holding_update f threads claim t pc (claim t)

theorem holding_same {f : Pc → Bool} {threads : Nat → Pc} (claim : Nat → Nat)
    (h : f pc = f (threads t)) :
    holding f (Function.update threads t pc) claim = holding f threads claim := by
  rw [holding_move, h]
  exact Function.update_eq_self t _

section Step

variable {w w' : Shared} {threads : Nat → Pc} {h h' : Hist} {t : Nat} {pc : Pc}

theorem Tally.update (hi : Tally ⟨w, threads⟩ h)
    (producers : Tickets h'.ring.pushes.length h'.added
      (holding Pc.pushing (Function.update threads t pc) h'.ring.claim))
    (consumers : Tickets h'.ring.pops (h'.returned.map Prod.fst)
      (holding Pc.popping (Function.update threads t pc) h'.ring.claim))
    (hadded : ∀ k ∈ h'.added, k ∈ h.added ∨ threads t = .pushBacklog ∧ k = h.ring.claim t)
    (hret : ∀ x ∈ h'.returned, x ∈ h.returned ∨
      ∃ chunk, threads t = .popBacklog chunk ∧ x = (h.ring.claim t, .ofRead chunk))
    (hclaim : ∀ u ≠ t, h'.ring.claim u = h.ring.claim u)
    (hpub : h.ring.pushed ⊆ h'.ring.pushed) (hrel : h.ring.popped ⊆ h'.ring.popped)
    (henter : pc = .pushBacklog → h'.ring.claim t ∈ h'.ring.pushed)
    (hleave : ∀ chunk, pc = .popBacklog chunk → (h'.ring.claim t, .ofRead chunk) ∈ h'.ring.popped)
    (backlog : (w'.backlog + h'.returned.length) % u32Mod = h'.added.length % u32Mod)
    (backlog_lt : w'.backlog < u32Mod) (harg : ∀ u ≠ t, h'.arg u = h.arg u)
    (hown : ∀ chunk, pc.arg = some chunk → h'.arg t = some chunk) :
    Tally ⟨w', Function.update threads t pc⟩ h' where
  producers := producers
  consumers := consumers
  published := by
    intro k hk
    rcases hadded k hk with hk | ⟨ht, rfl⟩
    · exact hpub (hi.published k hk)
    · exact hpub (hi.entering t ht)
  entering := by
    intro u hu
    rcases eq_or_ne u t with rfl | hne
    · exact henter (by simpa using hu)
    · rw [hclaim u hne]
      exact hpub (hi.entering u (by simpa [hne] using hu))
  released := by
    intro x hx
    rcases hret x hx with hx | ⟨chunk, ht, rfl⟩
    · exact hrel (hi.released x hx)
    · exact hrel (hi.leaving t chunk ht)
  leaving := by
    intro u chunk hu
    rcases eq_or_ne u t with rfl | hne
    · exact hleave chunk (by simpa using hu)
    · rw [hclaim u hne]
      exact hrel (hi.leaving u chunk (by simpa [hne] using hu))
  backlog := backlog
  backlog_lt := backlog_lt
  arg := by
    intro u chunk hu
    rcases eq_or_ne u t with rfl | hne
    · exact hown chunk (by simpa using hu)
    · rw [harg u hne]
      exact hi.arg u chunk (by simpa [hne] using hu)

theorem Tally.move (hi : Tally ⟨w, threads⟩ h) (hpush : pc.pushing = (threads t).pushing)
    (hpop : pc.popping = (threads t).popping) (hb : w'.backlog = w.backlog)
    (hadded : h'.added = h.added) (hret : h'.returned = h.returned)
    (hpushes : h'.ring.pushes = h.ring.pushes) (hpops : h'.ring.pops = h.ring.pops)
    (hclaim : h'.ring.claim = h.ring.claim) (hpub : h.ring.pushed ⊆ h'.ring.pushed)
    (hrel : h.ring.popped ⊆ h'.ring.popped)
    (henter : pc = .pushBacklog → h.ring.claim t ∈ h'.ring.pushed)
    (hleave : ∀ chunk, pc = .popBacklog chunk → (h.ring.claim t, .ofRead chunk) ∈ h'.ring.popped)
    (harg : ∀ u ≠ t, h'.arg u = h.arg u)
    (hown : ∀ chunk, pc.arg = some chunk → h'.arg t = some chunk) :
    Tally ⟨w', Function.update threads t pc⟩ h' := by
  refine hi.update ?_ ?_ (fun k hk => .inl (hadded ▸ hk)) (fun x hx => .inl (hret ▸ hx))
    (fun u _ => by rw [hclaim]) hpub hrel (by rwa [hclaim]) (by rwa [hclaim]) ?_ ?_ harg hown
  · rw [hpushes, hadded, hclaim, holding_same _ hpush]
    exact hi.producers
  · rw [hpops, hret, hclaim, holding_same _ hpop]
    exact hi.consumers
  · rw [hb, hret, hadded]
    exact hi.backlog
  · rw [hb]
    exact hi.backlog_lt

/-- From `pc₀` to `pc` the thread claims nothing and its chunk stays. -/
def Pc.Follows (pc pc₀ : Pc) : Prop :=
  pc.pushing = pc₀.pushing ∧ pc.popping = pc₀.popping ∧ pc ≠ .pushBacklog ∧
    (∀ chunk, pc ≠ .popBacklog chunk) ∧ ∀ chunk, pc.arg = some chunk → pc₀.arg = some chunk

theorem Tally.stay (hi : Tally ⟨w, threads⟩ h) (hb : w'.backlog = w.backlog)
    (hpc : pc.Follows (threads t)) : Tally ⟨w', Function.update threads t pc⟩ h := by
  obtain ⟨hpush, hpop, henter, hleave, harg⟩ := hpc
  exact hi.move hpush hpop hb rfl rfl rfl rfl rfl (List.Subset.refl _) (List.Subset.refl _)
    (fun he => absurd he henter) (fun chunk he => absurd he (hleave chunk)) (fun _ _ => rfl)
    fun chunk he => hi.arg t chunk (harg chunk he)

end Step

theorem tally_run (hi : Tally s h) (hs : step (.run t spurious) s = some s') :
    Tally s' (upd (.run t spurious) s h) := by
  simp only [step, Option.map_eq_some_iff] at hs
  obtain ⟨⟨pc, w⟩, hpc, rfl⟩ := hs
  obtain ⟨w₀, threads⟩ := s
  dsimp only at hpc ⊢
  -- The steps that leave the history as it is.
  have quiet (hupd : upd (.run t spurious) ⟨w₀, threads⟩ h = h) (hb : w.backlog = w₀.backlog)
      (hf : pc.Follows (threads t)) :
      Tally ⟨w, Function.update threads t pc⟩ (upd (.run t spurious) ⟨w₀, threads⟩ h) := by
    rw [hupd]
    exact hi.stay hb hf
  generalize ht : threads t = pc at hpc
  cases pc with
  | idle | done r => simp [pcStep] at hpc
  | pushLoad chunk | pushWrite chunk pos | popLoad | popRead pos =>
    cases hpc
    exact quiet (by simp [upd, BoundedQueue.upd, St.ring, ht, Pc.ring]) rfl
      (by simp [ht, Pc.Follows, Pc.pushing, Pc.popping, Pc.arg])
  | pushSeq chunk pos | popSeq pos =>
    have hupd : upd (.run t spurious) ⟨w₀, threads⟩ h = h := by
      simp [upd, BoundedQueue.upd, St.ring, ht, Pc.ring]
    simp only [pcStep] at hpc
    split_ifs at hpc <;> cases hpc <;>
      exact quiet hupd rfl (by simp [ht, Pc.Follows, Pc.pushing, Pc.popping, Pc.arg])
  | pushStore pos =>
    cases hpc
    have hupd : upd (.run t spurious) ⟨w₀, threads⟩ h =
        { h with ring := { h.ring with pushed := h.ring.claim t :: h.ring.pushed } } := by
      simp [upd, BoundedQueue.upd, St.ring, ht, Pc.ring]
    rw [hupd]
    exact hi.move (by rw [ht]; rfl) (by rw [ht]; rfl) rfl rfl rfl rfl rfl rfl
      (List.subset_cons_self ..) (List.Subset.refl _) (fun _ => .head _) (by simp)
      (fun _ _ => rfl) (by simp [Pc.arg])
  | popStore pos chunk =>
    cases hpc
    have hupd : upd (.run t spurious) ⟨w₀, threads⟩ h =
        { h with
          ring := { h.ring with popped := (h.ring.claim t, .ofRead chunk) :: h.ring.popped } } := by
      simp [upd, BoundedQueue.upd, St.ring, ht, Pc.ring]
    rw [hupd]
    refine hi.move (by rw [ht]; rfl) (by rw [ht]; rfl) rfl rfl rfl rfl rfl rfl
      (List.Subset.refl _) (List.subset_cons_self ..) (by simp) ?_ (fun _ _ => rfl)
      (by simp [Pc.arg])
    rintro _ ⟨⟩
    exact .head _
  | pushCas chunk pos =>
    simp only [pcStep] at hpc
    split at hpc <;> cases hpc
    · next hwin =>
      have hupd : upd (.run t spurious) ⟨w₀, threads⟩ h =
          { h with
            ring :=
              { h.ring with
                pushes := h.ring.pushes ++ [chunk]
                claim := Function.update h.ring.claim t h.ring.pushes.length } } := by
        simp [upd, BoundedQueue.upd, St.ring, ht, Pc.ring, Shared.ring, hwin]
      rw [hupd]
      refine hi.update ?_ ?_ (fun k hk => .inl hk) (fun x hx => .inl hx)
        (fun u hu => Function.update_of_ne hu _ _) (List.Subset.refl _) (List.Subset.refl _)
        (by simp) (by simp) hi.backlog hi.backlog_lt (fun _ _ => rfl) (by simp [Pc.arg])
      · rw [holding_update]
        simpa [Pc.pushing] using hi.producers.take (t := t) (by simp [holding, ht, Pc.pushing])
      · rw [holding_update]
        have hnone : holding Pc.popping threads h.ring.claim t = none := by
          simp [holding, ht, Pc.popping]
        simpa [Pc.popping, ← hnone] using hi.consumers
    · next hlost =>
      exact quiet (by simp [upd, BoundedQueue.upd, St.ring, ht, Pc.ring, Shared.ring, hlost]) rfl
        (by simp [ht, Pc.Follows, Pc.pushing, Pc.popping, Pc.arg])
  | popCas pos =>
    simp only [pcStep] at hpc
    split at hpc <;> cases hpc
    · next hwin =>
      have hupd : upd (.run t spurious) ⟨w₀, threads⟩ h =
          { h with
            ring :=
              { h.ring with
                pops := h.ring.pops + 1
                claim := Function.update h.ring.claim t h.ring.pops } } := by
        simp [upd, BoundedQueue.upd, St.ring, ht, Pc.ring, Shared.ring, hwin]
      rw [hupd]
      refine hi.update ?_ ?_ (fun k hk => .inl hk) (fun x hx => .inl hx)
        (fun u hu => Function.update_of_ne hu _ _) (List.Subset.refl _) (List.Subset.refl _)
        (by simp) (by simp) hi.backlog hi.backlog_lt (fun _ _ => rfl) (by simp [Pc.arg])
      · rw [holding_update]
        have hnone : holding Pc.pushing threads h.ring.claim t = none := by
          simp [holding, ht, Pc.pushing]
        simpa [Pc.pushing, ← hnone] using hi.producers
      · rw [holding_update]
        simpa [Pc.popping] using hi.consumers.take (t := t) (by simp [holding, ht, Pc.popping])
    · next hlost =>
      exact quiet (by simp [upd, BoundedQueue.upd, St.ring, ht, Pc.ring, Shared.ring, hlost]) rfl
        (by simp [ht, Pc.Follows, Pc.pushing, Pc.popping, Pc.arg])
  | pushBacklog =>
    cases hpc
    have hupd : upd (.run t spurious) ⟨w₀, threads⟩ h =
        { h with added := h.ring.claim t :: h.added } := by
      simp [upd, BoundedQueue.upd, St.ring, ht, Pc.ring]
    rw [hupd]
    refine hi.update ?_ ?_ ?_ (fun x hx => .inl hx) (fun _ _ => rfl) (List.Subset.refl _)
      (List.Subset.refl _) (by simp) (by simp) ?_ (Nat.mod_lt _ (by decide)) (fun _ _ => rfl)
      (by simp [Pc.arg])
    · rw [holding_move]
      exact hi.producers.finish (by simp [holding, ht, Pc.pushing])
    · rw [holding_same _ (by rw [ht]; rfl)]
      exact hi.consumers
    · rintro k (_ | ⟨_, hk⟩)
      · exact .inr ⟨ht, rfl⟩
      · exact .inl hk
    · have := hi.backlog
      simp only [Shared.fetchAdd, Shared.setBacklog, List.length_cons, u32Mod] at this ⊢
      omega
  | popBacklog chunk =>
    cases hpc
    have hupd : upd (.run t spurious) ⟨w₀, threads⟩ h =
        { h with returned := (h.ring.claim t, .ofRead chunk) :: h.returned } := by
      simp [upd, BoundedQueue.upd, St.ring, ht, Pc.ring]
    rw [hupd]
    refine hi.update ?_ ?_ (fun k hk => .inl hk) ?_ (fun _ _ => rfl) (List.Subset.refl _)
      (List.Subset.refl _) (by simp) (by simp) ?_ (Nat.mod_lt _ (by decide)) (fun _ _ => rfl)
      (by simp [Pc.arg])
    · rw [holding_same _ (by rw [ht]; rfl)]
      exact hi.producers
    · rw [holding_move]
      exact hi.consumers.finish (by simp [holding, ht, Pc.popping])
    · rintro x (_ | ⟨_, hx⟩)
      · exact .inr ⟨chunk, ht, rfl⟩
      · exact .inl hx
    · have := hi.backlog
      simp only [Shared.fetchSub, Shared.setBacklog, List.length_cons, u32Mod] at this ⊢
      omega

theorem Pc.unclaimed_of_ready (h : pc.ready = true) : pc.pushing = false ∧ pc.popping = false := by
  cases pc <;> first | exact ⟨rfl, rfl⟩ | cases h

theorem tally_step (hi : Tally s h) (hs : step a s = some s') : Tally s' (upd a s h) := by
  cases a with
  | push t chunk =>
    simp only [step] at hs
    split at hs <;> cases hs
    next hr =>
      obtain ⟨hpush, hpop⟩ := Pc.unclaimed_of_ready hr
      refine hi.move (by rw [hpush]; rfl) (by rw [hpop]; rfl) rfl rfl rfl rfl rfl rfl
        (List.Subset.refl _) (List.Subset.refl _) (by simp) (by simp) (fun u hu => ?_)
        (fun chunk he => ?_)
      · simp [upd, hu]
      · simpa [upd, Pc.arg] using he
  | pop t =>
    simp only [step] at hs
    split at hs <;> cases hs
    next hr =>
      obtain ⟨hpush, hpop⟩ := Pc.unclaimed_of_ready hr
      exact hi.stay rfl ⟨hpush.symm, hpop.symm, by simp, by simp, by simp [Pc.arg]⟩
  | run t spurious => exact tally_run hi hs

/-! ## The result -/

structure Inv (s : St) (h : Hist) : Prop where
  ring : ∃ v, BoundedQueue.Inv warehouseCapacity s.ring h.ring v
  tally : Tally s h
  below : s.shared.tail + warehouseCapacity ≤ 2 ^ 63

theorem inv_init : Inv .init .empty where
  ring := ⟨.empty, BoundedQueue.BoundedQueueLemmas.inv_init⟩
  tally := by
    refine ⟨?_, ?_, ?_, ?_, ?_, ?_, rfl, by decide, ?_⟩
    · exact .empty
    · exact .empty
    all_goals simp [St.init, Hist.empty, Pc.arg]
  below := by decide

theorem tail_le (hs : step a s = some s') : s'.shared.tail ≤ s.shared.tail + 1 := by
  cases a with
  | push t chunk | pop t =>
    simp only [step] at hs
    split at hs <;> cases hs
    exact Nat.le_succ _
  | run t spurious =>
    simp only [step, Option.map_eq_some_iff] at hs
    obtain ⟨⟨pc, w⟩, hpc, rfl⟩ := hs
    cases ht : s.threads t with
    | pushCas chunk pos =>
      simp only [ht, pcStep] at hpc
      split at hpc <;> cases hpc
      · next hwin =>
        rw [← hwin.1]
        exact Nat.mod_le _ _
      · exact Nat.le_succ _
    | pushSeq chunk pos | popSeq pos | popCas pos =>
      simp only [ht, pcStep] at hpc
      split_ifs at hpc <;> cases hpc <;> exact Nat.le_succ _
    | idle | done r => simp [ht, pcStep] at hpc
    | pushBacklog | popBacklog chunk =>
      rw [ht] at hpc
      cases hpc
      exact (s.shared.tail_setBacklog _).le.trans (Nat.le_succ _)
    | _ =>
      rw [ht] at hpc
      cases hpc
      exact Nat.le_succ _

theorem inv_step (hi : Inv s h) (hb : PosBelow s a) (hs : step a s = some s') :
    Inv s' (upd a s h) := by
  obtain ⟨v, hv⟩ := hi.ring
  have hle := tail_le hs
  have htail : s.shared.tail = v.enq := hv.enq
  unfold PosBelow at hb
  exact ⟨ring_step hv (by omega) hs, tally_step hi.tally hs, by omega⟩

/-- A published position that no `pop` has claimed is resident. -/
theorem resident_of_published (hv : BoundedQueue.Inv warehouseCapacity s.ring h.ring v) {k : Nat}
    (hk : k ∈ v.published) (hle : v.deq ≤ k) :
    ∃ chunk, h.ring.pushes[k]? = some chunk ∧ Resident s.shared k chunk := by
  have hnr : k ∉ v.released := fun hr => by
    have := hv.ring.released_lt k hr
    omega
  have hlt := hv.ring.published_lt k hk
  have hlen : k < h.ring.pushes.length := by rwa [hv.hist.length]
  have hval : v.val k = some h.ring.pushes[k] := by
    rw [← hv.hist.value k hlt, List.getElem?_eq_getElem hlen]
  refine ⟨_, List.getElem?_eq_getElem hlen, ?_, ?_, hv.ring.seq_of_published hk hnr,
    (hv.ring.value k hk hnr).trans hval⟩
  · exact hv.deq.le.trans hle
  · exact hlt.trans_le hv.enq.ge

/-- What a `pop` has taken from the ring was pushed there. -/
theorem origin_of_popped (hv : BoundedQueue.Inv warehouseCapacity s.ring h.ring v) {k : Nat}
    {r : Ret TaskChunk} (hr : (k, r) ∈ h.ring.popped) :
    ∃ chunk, h.ring.pushes[k]? = some chunk ∧ r = .value chunk :=
  ((BoundedQueue.BoundedQueueLemmas.mpmcOk_of_inv hv).fifo k r hr).2

theorem reads_of_inv {pos : Nat} (hv : BoundedQueue.Inv warehouseCapacity s.ring h.ring v)
    (ht : s.threads t = .popRead pos) :
    s.shared.seq (pos % warehouseCapacity) = pos + 1 ∧ h.ring.claim t = pos ∧
      ∃ chunk, h.ring.pushes[pos]? = some chunk ∧
        s.shared.chunk (pos % warehouseCapacity) = some chunk := by
  have hring : s.ring.threads t = .popRead pos := congrArg Pc.ring ht
  have hpc := hv.pc t
  rw [hring] at hpc
  obtain ⟨hlt, hnr⟩ := hpc
  have hpub := hv.ring.published_of_lt pos hlt
  have hlen : pos < h.ring.pushes.length := by
    rw [hv.hist.length]
    exact hlt.trans_le hv.ring.deq_le
  have hval : v.val pos = some h.ring.pushes[pos] := by
    rw [← hv.hist.value pos (hlt.trans_le hv.ring.deq_le), List.getElem?_eq_getElem hlen]
  refine ⟨hv.ring.seq_of_published hpub hnr, hv.claim t pos (by rw [hring]; rfl), _,
    List.getElem?_eq_getElem hlen, (hv.ring.value pos hpub hnr).trans hval⟩

/-- A `push` is refused on the ground of the sequence number. -/
theorem pcStep_full {w w' : Shared} {chunk : TaskChunk}
    (h : pcStep spurious w pc = some (.done (.full chunk), w')) :
    ∃ pos, pc = .pushSeq chunk pos ∧ diff (w.seq (pos % warehouseCapacity)) pos < 0 := by
  cases pc with
  | pushSeq chunk' pos =>
    simp only [pcStep] at h
    split at h
    · cases h
    · split at h
      · next hlt =>
        cases h
        exact ⟨pos, rfl, hlt⟩
      · cases h
  | popSeq pos | pushCas chunk' pos | popCas pos =>
    simp only [pcStep] at h
    split_ifs at h <;> cases h
  | popBacklog value => cases value <;> simp [pcStep, BoundedQueue.Ret.ofRead] at h
  | _ => simp [pcStep] at h

theorem refused_of_inv (hi : Inv s h) {chunk : TaskChunk} (hs : step (.run t spurious) s = some s')
    (hr : s'.threads t = .done (.full chunk)) : h.arg t = some chunk ∧
      ∃ pos, s.threads t = .pushSeq chunk (pos + warehouseCapacity) ∧
        ∀ r, (pos, r) ∉ h.ring.popped := by
  simp only [step, Option.map_eq_some_iff] at hs
  obtain ⟨⟨pc, w⟩, hpc, rfl⟩ := hs
  obtain rfl : pc = .done (.full chunk) := by simpa using hr
  obtain ⟨pos, ht, hd⟩ := pcStep_full hpc
  obtain ⟨v, hv⟩ := hi.ring
  have hle : pos ≤ v.enq := by
    have := hv.pc t
    rwa [show s.ring.threads t = .pushSeq chunk pos from congrArg Pc.ring ht] at this
  have hbelow := hi.below
  have htail : s.shared.tail = v.enq := hv.enq
  have hlt : s.shared.seq (pos % warehouseCapacity) < v.enq + warehouseCapacity :=
    hv.ring.seq_lt (by decide) hle
  have hcap : 0 < warehouseCapacity := by decide
  rw [diff_eq (by omega) (by omega)] at hd
  obtain ⟨q, rfl, hq⟩ := hv.ring.unreleased_of_seq_lt (by decide) hle
    (show s.shared.seq _ < _ by omega)
  refine ⟨hi.tally.arg t chunk (by rw [ht]; rfl), q, ht, fun r hr => hq ?_⟩
  exact ((hv.hist.popped q r).mp hr).1

/-- Without a call in progress every claimed position has been counted. -/
theorem settled_of_inv (hi : Inv s h) (hready : ∀ t, (s.threads t).ready = true) :
    s.shared.backlog = s.shared.tail - s.shared.head ∧ s.shared.head ≤ s.shared.tail ∧
      (s.shared.isBusy = true ↔ ∃ k chunk, Resident s.shared k chunk) := by
  obtain ⟨v, hv⟩ := hi.ring
  have hnopush (t : Nat) : holding Pc.pushing s.threads h.ring.claim t = none := by
    simp [holding, (Pc.unclaimed_of_ready (hready t)).1]
  have hnopop (t : Nat) : holding Pc.popping s.threads h.ring.claim t = none := by
    simp [holding, (Pc.unclaimed_of_ready (hready t)).2]
  have hpush := hi.tally.producers.length_done hnopush
  have hpop := hi.tally.consumers.length_done hnopop
  have htail : s.shared.tail = v.enq := hv.enq
  have hhead : s.shared.head = v.deq := hv.deq
  have hle := hv.ring.deq_le
  have hle' := hv.ring.enq_le
  have hbacklog : s.shared.backlog = s.shared.tail - s.shared.head := by
    have hmod := hi.tally.backlog
    have hlt := hi.tally.backlog_lt
    rw [List.length_map, hv.hist.pops] at hpop
    rw [hv.hist.length] at hpush
    rw [hpop, hpush] at hmod
    simp only [warehouseCapacity, u32Mod] at hle' hmod hlt
    omega
  refine ⟨hbacklog, by omega, ?_⟩
  rw [Shared.isBusy, decide_eq_true_iff, hbacklog]
  constructor
  · intro hne
    -- the position at `head` was handed in by its producer, so it is published
    have hadded : v.deq ∈ h.added := by
      refine (hi.tally.producers.complete v.deq ?_).resolve_right ?_
      · rw [hv.hist.length]
        omega
      · rintro ⟨t, ht⟩
        rw [hnopush t] at ht
        cases ht
    obtain ⟨chunk, -, hres⟩ := resident_of_published hv
      ((hv.hist.pushed _).mp (hi.tally.published _ hadded)) le_rfl
    exact ⟨_, chunk, hres⟩
  · rintro ⟨k, chunk, hk, hlt, -⟩
    omega

theorem warehouseOk_of_inv (hi : Inv s h) : WarehouseOk s h := by
  obtain ⟨v, hv⟩ := hi.ring
  refine ⟨hi.tally.consumers, fun k hk => ?_,
    fun k r hr => origin_of_popped hv (hi.tally.released _ hr),
    fun t pos ht => reads_of_inv hv ht, fun t spurious s' chunk hs hr => refused_of_inv hi hs hr,
    settled_of_inv hi⟩
  have hpub := (hv.hist.pushed k).mp (hi.tally.published k hk)
  rcases Nat.lt_or_ge k v.deq with hlt | hge
  · -- claimed by a `pop`
    obtain ⟨chunk, hchunk⟩ : ∃ chunk, h.ring.pushes[k]? = some chunk := by
      have hlen : k < h.ring.pushes.length := by
        rw [hv.hist.length]
        exact hv.ring.published_lt k hpub
      exact ⟨_, List.getElem?_eq_getElem hlen⟩
    refine ⟨chunk, hchunk, ?_⟩
    rcases hi.tally.consumers.complete k (by rwa [hv.hist.pops]) with hret | hpop
    · obtain ⟨⟨k, r⟩, hr, rfl⟩ := List.mem_map.mp hret
      obtain ⟨chunk', hchunk', rfl⟩ := origin_of_popped hv (hi.tally.released _ hr)
      rw [hchunk] at hchunk'
      cases hchunk'
      exact .inl hr
    · exact .inr (.inl hpop)
  · obtain ⟨chunk, hchunk, hres⟩ := resident_of_published hv hpub hge
    exact ⟨chunk, hchunk, .inr (.inr hres)⟩

/-- The runs of the threads, with the history, in which the positions stay below
`2 ^ 63`. -/
abbrev WarehouseRun (tr : List Act) (p : St × Hist) : Prop :=
  Run (initHist (· = St.init) Hist.empty) (withHist step upd) (fun p a => PosBelow p.1 a) tr p

/-- Under any interleaving the warehouse loses and invents no chunk, refuses only
when it is full, and counts its backlog. -/
theorem warehouse_mpmc (tr : List Act) (s : St) (h : Hist) (hrun : WarehouseRun tr (s, h)) :
    WarehouseOk s h := by
  refine warehouseOk_of_inv (hrun.hist_invariant (I := Inv) ?_
    (fun _ _ _ _ hi hb hst => inv_step hi hb hst))
  rintro s rfl
  exact inv_init

instance (s : St) (a : Act) : Decidable (PosBelow s a) :=
  inferInstanceAs (Decidable (_ < _))

/-- Threads 0 and 1 push, thread 2 pops. -/
def twoPushesOnePop : List Act :=
  [[.push 0 (.single 7), .push 1 (.single 8), .pop 2, .run 0 false, .run 1 false],
    .replicate 5 (.run 0 false), .replicate 7 (.run 1 false), .replicate 6 (.run 2 false)].flatten

theorem warehouse_mpmc_two_producers : ∃ tr s h, WarehouseRun tr (s, h) ∧
    h.added = [1, 0] ∧ h.returned.map Prod.fst = [0] ∧ s.shared.backlog = 1 ∧ WarehouseOk s h := by
  obtain ⟨⟨s, h⟩, hrun, hadded, hret, hbacklog⟩ : ∃ p, WarehouseRun twoPushesOnePop.reverse p ∧
      p.2.added = [1, 0] ∧ p.2.returned.map Prod.fst = [0] ∧ p.1.shared.backlog = 1 :=
    Run.exists_of_guarded twoPushesOnePop (.init, .empty) ⟨rfl, rfl⟩ (by decide +kernel)
  exact ⟨_, s, h, hrun, hadded, hret, hbacklog, warehouse_mpmc _ s h hrun⟩

end Dtact.Scheduler.WarehouseMpmc
