import Mathlib.Data.Multiset.AddSub

/-!
# `WaitQueue`

The waiter list of the primitives in `sync`: a ring of `READY_CAPACITY` entries, served in the order
of registration, and a stack for the entries beyond. An entry that is cancelled stays in its place
with its flag cleared. Each operation is one step here. The lemmas say what the operations do to the
wakers that can still be woken, `owners`, and to a single registration, `Holds`.
-/

namespace Dtact

namespace WaitQueue

/-- `Arc<Entry>`: which entry it is, and the waker, which never changes. -/
structure RegistrationToken (ω : Type) where
  number : Nat
  waker : ω
deriving DecidableEq

structure Entry (ω : Type) where
  token : RegistrationToken ω
  valid : Bool

end WaitQueue

open WaitQueue in
/-- The ring that is not allocated yet is the empty one. -/
structure WaitQueue (ω : Type) where
  /-- The oldest entry is the first. -/
  ready : List (Entry ω)
  /-- The top of the stack is the first. -/
  overflow : List (Entry ω)
  issued : Nat

namespace WaitQueue

variable {ω : Type}

def readyCapacity : Nat := 256

def new : WaitQueue ω := ⟨[], [], 0⟩

def register (q : WaitQueue ω) (waker : ω) : RegistrationToken ω × WaitQueue ω :=
  let token := ⟨q.issued, waker⟩
  let entry := ⟨token, true⟩
  let q := { q with issued := q.issued + 1 }
  if q.ready.length < readyCapacity then (token, { q with ready := q.ready ++ [entry] })
  else (token, { q with overflow := entry :: q.overflow })

/-- Clear the flag of the entry, if it is still queued; a popped entry has it cleared. -/
def clear [DecidableEq ω] (token : RegistrationToken ω) (es : List (Entry ω)) : List (Entry ω) :=
  es.map fun e => if e.token = token then { e with valid := false } else e

def cancel [DecidableEq ω] (q : WaitQueue ω) (token : RegistrationToken ω) : WaitQueue ω :=
  { q with ready := clear token q.ready, overflow := clear token q.overflow }

/-- Pop until an entry has its flag set, or nothing is left. -/
def popValid : List (Entry ω) → Option ω × List (Entry ω)
  | [] => (none, [])
  | e :: es => if e.valid then (some e.token.waker, es) else popValid es

/-- `wake_one`, with the waker it invokes. -/
def wakeOne (q : WaitQueue ω) : Option ω × WaitQueue ω :=
  match popValid q.ready with
  | (some waker, ready) => (some waker, { q with ready })
  | (none, ready) =>
    let (waker, overflow) := popValid q.overflow
    (waker, { q with ready, overflow })

def validWakers (es : List (Entry ω)) : List ω :=
  (es.filter Entry.valid).map fun e => e.token.waker

/-- `wake_all`, with the wakers it invokes. `drain_all` reverses the stack. -/
def wakeAll (q : WaitQueue ω) : List ω × WaitQueue ω :=
  (validWakers q.ready ++ validWakers q.overflow.reverse, { q with ready := [], overflow := [] })

/-- `wake` happens to the tasks whose wakers are invoked. -/
def invoke [DecidableEq ω] {τ : Type} (wakers : List ω) (wake : τ → τ) (task : ω → τ) (j : ω) : τ :=
  if j ∈ wakers then wake (task j) else task j

/-- Entries with the flag cleared count as well. -/
def hasWaiters (q : WaitQueue ω) : Bool := !q.ready.isEmpty || !q.overflow.isEmpty

/-! ## Whom a wake can reach -/

/-- The wakers of the entries that can be woken. -/
def owners (q : WaitQueue ω) : Multiset ω := ↑(validWakers q.ready) + ↑(validWakers q.overflow)

/-- The waker of the entry that is served next. -/
def next (q : WaitQueue ω) : Option ω := (validWakers q.ready ++ validWakers q.overflow).head?

theorem owners_register (q : WaitQueue ω) (waker : ω) :
    (q.register waker).2.owners = waker ::ₘ q.owners := by
  unfold register
  dsimp only
  split
  · simp only [owners, validWakers, List.filter_append, List.map_append, List.filter_cons,
      List.filter_nil, if_true, List.map_cons, List.map_nil, ← Multiset.coe_add,
      ← Multiset.singleton_add]
    rw [Multiset.coe_singleton, Multiset.add_comm (Multiset.ofList _) {waker}, Multiset.add_assoc]
  · simp only [owners, validWakers, List.filter_cons, if_true, List.map_cons, ← Multiset.cons_coe,
      Multiset.add_cons]

section

variable [DecidableEq ω]

/-- Cancelling a registration takes nothing from the other wakers. -/
theorem mem_validWakers_clear {token : RegistrationToken ω} {es : List (Entry ω)} {w : ω}
    (hne : w ≠ token.waker) (h : w ∈ validWakers es) : w ∈ validWakers (clear token es) := by
  simp only [validWakers, List.mem_map, List.mem_filter] at h ⊢
  obtain ⟨e, ⟨he, hvalid⟩, rfl⟩ := h
  have hkept : ¬ e.token = token := fun heq => hne (congrArg RegistrationToken.waker heq)
  exact ⟨e, ⟨List.mem_map.mpr ⟨e, he, if_neg hkept⟩, hvalid⟩, rfl⟩

theorem mem_owners_cancel {q : WaitQueue ω} {token : RegistrationToken ω} {w : ω}
    (hne : w ≠ token.waker) (h : w ∈ q.owners) : w ∈ (q.cancel token).owners := by
  simp only [owners, cancel, Multiset.mem_add, Multiset.mem_coe] at h ⊢
  exact h.imp (mem_validWakers_clear hne) (mem_validWakers_clear hne)

end

/-- The first valid waker is taken, and what is passed over is not valid. -/
theorem validWakers_popValid (es : List (Entry ω)) :
    validWakers es = (popValid es).1.toList ++ validWakers (popValid es).2 := by
  induction es with
  | nil => rfl
  | cons e es ih =>
    by_cases hvalid : e.valid
    · simp [validWakers, popValid, hvalid]
    · simp only [validWakers, List.filter_cons, popValid, hvalid] at ih ⊢
      exact ih

theorem popValid_none {es : List (Entry ω)} (h : (popValid es).1 = none) :
    (popValid es).2 = [] := by
  induction es with
  | nil => rfl
  | cons e es ih =>
    by_cases hvalid : e.valid
    · simp [popValid, hvalid] at h
    · simp only [popValid, hvalid] at h ⊢
      exact ih h

/-- `wake_one` serves the next entry. -/
theorem wakeOne_fst (q : WaitQueue ω) : q.wakeOne.1 = q.next := by
  have hready := validWakers_popValid q.ready
  have hoverflow := validWakers_popValid q.overflow
  unfold wakeOne next
  split
  case h_1 waker ready heq =>
    rw [heq] at hready
    rw [hready]
    rfl
  case h_2 ready heq =>
    have hnil : ready = [] := by
      have hafter := popValid_none (congrArg Prod.fst heq)
      rwa [heq] at hafter
    rw [heq, hnil] at hready
    rw [hready, hoverflow]
    cases hwaker : (popValid q.overflow).1 with
    | some waker => simp [validWakers]
    | none => simp [validWakers, popValid_none hwaker]

variable {q : WaitQueue ω}

/-- `wake_one` takes one registration of the waker it invokes. -/
theorem owners_wakeOne {w : ω} (h : q.wakeOne.1 = some w) :
    q.owners = w ::ₘ q.wakeOne.2.owners := by
  have hready := validWakers_popValid q.ready
  have hoverflow := validWakers_popValid q.overflow
  unfold wakeOne at h ⊢
  split at h
  case h_1 w' ready heq =>
    obtain rfl : w' = w := Option.some.inj h
    rw [heq] at hready
    simp only [owners, hready, Option.toList_some, List.singleton_append,
      ← Multiset.cons_coe, Multiset.cons_add]
  case h_2 ready heq =>
    rw [heq] at hready
    dsimp only at h
    rw [h] at hoverflow
    simp only [owners, hready, hoverflow, Option.toList_some, Option.toList_none,
      List.singleton_append, List.nil_append, ← Multiset.cons_coe, Multiset.add_cons]

/-- When `wake_one` wakes nobody, there was nobody to wake. -/
theorem owners_of_wakeOne_none (h : q.wakeOne.1 = none) :
    q.owners = 0 ∧ q.wakeOne.2.owners = 0 := by
  have hready := validWakers_popValid q.ready
  have hoverflow := validWakers_popValid q.overflow
  unfold wakeOne at h ⊢
  split at h
  case h_1 heq => cases h
  case h_2 ready heq =>
    have hnil : ready = [] := by
      have hafter := popValid_none (congrArg Prod.fst heq)
      rwa [heq] at hafter
    dsimp only at h
    rw [heq, hnil] at hready
    rw [h, popValid_none h] at hoverflow
    simp only [owners, hready, hoverflow, hnil, popValid_none h]
    exact ⟨rfl, rfl⟩

theorem mem_wakeAll {w : ω} : w ∈ q.wakeAll.1 ↔ w ∈ q.owners := by
  simp [wakeAll, owners, validWakers]

theorem owners_of_not_hasWaiters (h : q.hasWaiters = false) : q.owners = 0 := by
  simp only [hasWaiters, Bool.or_eq_false_iff, Bool.not_eq_false', List.isEmpty_iff] at h
  rw [owners, h.1, h.2]
  rfl

/-! ## Registrations

Several registrations may have the same waker, and a future that is polled again leaves its
earlier registration behind. What follows is about one registration, named by its token. -/

/-- The entry is queued with its flag set. -/
def Holds (q : WaitQueue ω) (token : RegistrationToken ω) : Prop :=
  ∃ e ∈ q.ready ++ q.overflow, e.token = token ∧ e.valid = true

theorem holds_register (q : WaitQueue ω) (waker : ω) :
    (q.register waker).2.Holds (q.register waker).1 := by
  unfold register
  dsimp only
  split
  · exact ⟨⟨⟨q.issued, waker⟩, true⟩, by simp, rfl, rfl⟩
  · exact ⟨⟨⟨q.issued, waker⟩, true⟩, by simp, rfl, rfl⟩

theorem register_waker (q : WaitQueue ω) (waker : ω) : (q.register waker).1.waker = waker := by
  unfold register
  dsimp only
  split <;> rfl

/-- `wake_all` invokes the waker of every registration that is there. -/
theorem Holds.wakeAll {token : RegistrationToken ω} (h : q.Holds token) :
    token.waker ∈ q.wakeAll.1 := by
  obtain ⟨e, he, rfl, hvalid⟩ := h
  rw [List.mem_append] at he
  simp only [WaitQueue.wakeAll, validWakers, List.mem_append, List.mem_map, List.mem_filter,
    List.mem_reverse]
  exact he.imp (fun hmem => ⟨e, ⟨hmem, hvalid⟩, rfl⟩) fun hmem => ⟨e, ⟨hmem, hvalid⟩, rfl⟩

end WaitQueue

end Dtact
