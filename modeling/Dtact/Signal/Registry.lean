import Mathlib.Logic.Function.Basic
import Dtact.Lib.Transition
import Dtact.Words

/-!
# The listeners of a signal

A registry has 16 slots for listeners. `register` takes the next number and panics if there is no
slot with that number; `broadcast` walks the slots below the counter. A listener that is dropped is
marked dead and skipped.
-/

namespace Dtact.Signal

open Transition

def maxListeners : Nat := 16

structure ListenerState where
  pending : Nat
  dead : Bool
deriving DecidableEq

def ListenerState.new : ListenerState := ⟨0, false⟩

/-- `pending.fetch_add` wraps around. -/
def ListenerState.deliver (l : ListenerState) : ListenerState :=
  if l.dead then l else { l with pending := (l.pending + 1) % usizeMod }

/-- `poll_recv`: whether it is ready. -/
def ListenerState.pollRecv (l : ListenerState) : Bool × ListenerState :=
  if 0 < l.pending then (true, { l with pending := l.pending - 1 }) else (false, l)

/-- The listeners that `register` has returned are numbered. A slot holds the number of its
listener. -/
structure St where
  slots : Nat → Option Nat
  len : Nat
  states : Nat → ListenerState
  returned : Nat

def St.new : St := ⟨fun _ => none, 0, fun _ => .new, 0⟩

/-- `register` panics after it has incremented the counter. -/
def register (s : St) : St :=
  if s.len < maxListeners then
    { slots := Function.update s.slots s.len (some s.returned)
      len := wrappingAdd s.len 1
      states := Function.update s.states s.returned .new
      returned := s.returned + 1 }
  else { s with len := wrappingAdd s.len 1 }

/-- The walk over the slots below `n`. -/
def deliverAll (slots : Nat → Option Nat) (n : Nat) (states : Nat → ListenerState) :
    Nat → ListenerState :=
  (List.range n).foldl (fun states k =>
    match slots k with
    | none => states
    | some i => Function.update states i (states i).deliver) states

/-- `broadcast`: `none` if `&self.slots[..len]` panics. -/
def broadcast (s : St) : Option St :=
  if s.len ≤ maxListeners then some { s with states := deliverAll s.slots s.len s.states }
  else none

/-- The listener has been returned and not been dropped. -/
def Owned (s : St) (i : Nat) : Prop := i < s.returned ∧ (s.states i).dead = false

instance (s : St) (i : Nat) : Decidable (Owned s i) := inferInstanceAs (Decidable (_ ∧ _))

inductive Act
  | register
  | drop (i : Nat)
  | recv (i : Nat)
  | broadcast

/-- A broadcast that panics changes nothing. -/
def step (a : Act) (s : St) : Option St :=
  match a with
  | .register => some (register s)
  | .drop i =>
    if Owned s i then
      some { s with states := Function.update s.states i { s.states i with dead := true } }
    else none
  | .recv i =>
    if Owned s i then
      some { s with states := Function.update s.states i (s.states i).pollRecv.2 }
    else none
  | .broadcast => some ((broadcast s).getD s)

/-! ## The property -/

/-- The deliveries to each listener and the completions of its `recv`. -/
structure Counts where
  delivered : Nat → Nat
  received : Nat → Nat

def Counts.zero : Counts := ⟨fun _ => 0, fun _ => 0⟩

def upd (a : Act) (s : St) (c : Counts) : Counts :=
  match a with
  | .recv i =>
    if (s.states i).pollRecv.1 then
      { c with received := Function.update c.received i (c.received i + 1) }
    else c
  | .broadcast =>
    if (broadcast s).isSome then
      { c with delivered := fun i => if Owned s i then c.delivered i + 1 else c.delivered i }
    else c
  | .register | .drop _ => c

/-- There is a slot for the listener, and no count of pending deliveries overflows. -/
def Within (s : St) : Act → Prop
  | .register => s.len < maxListeners
  | .broadcast => ∀ i < s.returned, (s.states i).pending + 1 < usizeMod
  | .drop _ | .recv _ => True

/-- The next broadcast does not panic and adds one delivery for each listener that is owned. -/
def Reaches (s : St) : Prop :=
  ∃ s', broadcast s = some s' ∧ ∀ i, (s'.states i).pending =
    if Owned s i then (s.states i).pending + 1 else (s.states i).pending

abbrev RegistryRun (ok : St → Act → Prop) : List Act → St × Counts → Prop :=
  Run (initHist (· = .new) .zero) (withHist step upd) fun p a => ok p.1 a

/-! ## Proofs -/

/-- Every slot below `n` is visited once. -/
theorem deliverAll_eq {slots : Nat → Option Nat} {n : Nat} (h : ∀ k < n, slots k = some k)
    (states : Nat → ListenerState) (i : Nat) :
    deliverAll slots n states i = if i < n then (states i).deliver else states i := by
  induction n with
  | zero => rfl
  | succ n ih =>
    have hn := ih fun k hk => h k (Nat.lt_succ_of_lt hk)
    unfold deliverAll at hn ⊢
    rw [List.range_succ, List.foldl_append]
    simp only [List.foldl_cons, List.foldl_nil, h n (Nat.lt_succ_self n)]
    rcases eq_or_ne i n with rfl | hne
    · rw [Function.update_self, hn, if_neg (lt_irrefl i), if_pos (Nat.lt_succ_self i)]
    · rw [Function.update_of_ne hne, hn]
      simp only [show i < n + 1 ↔ i < n by omega]

structure Inv (s : St) (c : Counts) : Prop where
  len : s.len = s.returned
  le : s.len ≤ maxListeners
  slots : ∀ k < s.len, s.slots k = some k
  fresh : ∀ i ≥ s.returned, s.states i = .new
  account : ∀ i, c.received i + (s.states i).pending = c.delivered i

variable {s s' : St} {c : Counts}

theorem Inv.deliverAll (h : Inv s c) (hok : Within s .broadcast) (i : Nat) :
    deliverAll s.slots s.len s.states i =
      if Owned s i then { s.states i with pending := (s.states i).pending + 1 }
      else s.states i := by
  rw [deliverAll_eq h.slots, h.len]
  by_cases hlt : i < s.returned
  · rw [if_pos hlt, ListenerState.deliver, Nat.mod_eq_of_lt (hok i hlt)]
    cases hdead : (s.states i).dead <;> simp [Owned, hlt, hdead]
  · simp [Owned, hlt]

theorem Inv.reaches (h : Inv s c) (hok : Within s .broadcast) : Reaches s := by
  refine ⟨_, if_pos h.le, fun i => ?_⟩
  show (Signal.deliverAll s.slots s.len s.states i).pending = _
  rw [h.deliverAll hok]
  split <;> rfl

theorem Inv.set {i : Nat} {l : ListenerState} {received : Nat → Nat} (h : Inv s c)
    (hlt : i < s.returned) (hi : received i + l.pending = c.delivered i)
    (hreceived : ∀ j ≠ i, received j = c.received j) :
    Inv { s with states := Function.update s.states i l } { c with received } where
  len := h.len
  le := h.le
  slots := h.slots
  fresh j hj := (Function.update_of_ne (hlt.trans_le hj).ne' _ _).trans (h.fresh j hj)
  account := by
    refine (Function.forall_update_iff s.states
      (p := fun j l => received j + l.pending = c.delivered j)).mpr ⟨hi, fun j hne => ?_⟩
    rw [hreceived j hne]
    exact h.account j

theorem Inv.register (h : Inv s c) (hlt : s.len < maxListeners) : Inv (register s) c := by
  have hnext : wrappingAdd s.len 1 = s.len + 1 :=
    wrappingAdd_eq (by simp only [maxListeners] at hlt; omega)
  have hstates : Function.update s.states s.returned .new = s.states := by
    rw [← h.fresh _ le_rfl, Function.update_eq_self]
  rw [Signal.register, if_pos hlt, hnext, hstates]
  refine ⟨congrArg (· + 1) h.len, hlt, ?_, fun i hi => h.fresh i (Nat.le_of_succ_le hi), h.account⟩
  refine (Function.forall_update_iff s.slots
    (p := fun k slot => k < s.len + 1 → slot = some k)).mpr ⟨fun _ => by rw [h.len], ?_⟩
  intro k hne hk
  exact h.slots k (by omega)

theorem Inv.step {a : Act} (h : Inv s c) (hok : Within s a) (hst : step a s = some s') :
    Inv s' (upd a s c) := by
  cases a with
  | register =>
    cases hst
    exact h.register hok
  | drop i =>
    obtain ⟨⟨hlt, -⟩, heq⟩ := Option.ite_none_right_eq_some.mp hst
    cases heq
    exact h.set hlt (h.account i) fun _ _ => rfl
  | recv i =>
    obtain ⟨⟨hlt, -⟩, heq⟩ := Option.ite_none_right_eq_some.mp hst
    cases heq
    have haccount := h.account i
    simp only [upd, ListenerState.pollRecv]
    split
    · refine h.set hlt ?_ fun j hne => Function.update_of_ne hne ..
      rw [Function.update_self]
      simp only
      omega
    · exact h.set hlt haccount fun _ _ => rfl
  | broadcast =>
    cases hst
    have hsome : broadcast s = some { s with states := Signal.deliverAll s.slots s.len s.states } :=
      if_pos h.le
    simp only [upd, hsome, Option.isSome_some, if_true, Option.getD_some]
    refine ⟨h.len, h.le, h.slots, fun i hi => ?_, fun i => ?_⟩ <;>
      simp only [h.deliverAll hok]
    · rw [if_neg fun howned => absurd howned.1 (not_lt.mpr hi)]
      exact h.fresh i hi
    · split
      · exact congrArg (· + 1) (h.account i)
      · exact h.account i

/-- **A broadcast reaches the live listeners as long as there is a slot for each listener.** In
every state reached so, the next broadcast does, each listener has had as many completions of
`recv` as deliveries, but for the pending ones, and after another `register` the next broadcast
panics exactly if there was no slot for it. -/
theorem broadcast_reaches {tr : List Act} {p : St × Counts} (hrun : RegistryRun Within tr p) :
    (Within p.1 .broadcast → Reaches p.1) ∧
      (∀ i, p.2.received i + (p.1.states i).pending = p.2.delivered i) ∧
      (broadcast (register p.1) ≠ none ↔ Within p.1 .register) := by
  have hinv : Inv p.1 p.2 := by
    refine hrun.hist_invariant (I := Inv) ?_ (fun _ _ _ _ h hok hst => h.step hok hst)
    rintro s rfl
    exact ⟨rfl, Nat.zero_le _, nofun, fun _ _ => rfl, fun _ => rfl⟩
  refine ⟨hinv.reaches, hinv.account, fun hsome => ?_, fun hlt => ?_⟩
  · by_contra hfull
    have hge : ¬ p.1.len < maxListeners := hfull
    have hlen : p.1.len = maxListeners := le_antisymm hinv.le (not_lt.mp hge)
    refine hsome (if_neg ?_)
    rw [register, if_neg hge, hlen]
    show ¬ wrappingAdd maxListeners 1 ≤ maxListeners
    decide
  · rw [broadcast, if_pos (hinv.register hlt).le]
    rintro ⟨⟩

instance (s : St) : (a : Act) → Decidable (Within s a)
  | .register => inferInstanceAs (Decidable (_ < _))
  | .broadcast => inferInstanceAs (Decidable (∀ i < s.returned, _))
  | .drop _ | .recv _ => inferInstanceAs (Decidable True)

/-- Two listeners, one of which is dropped between two broadcasts. -/
def dropBetween : List Act :=
  [.register, .register, .broadcast, .drop 0, .recv 1, .broadcast, .recv 1, .recv 1]

theorem broadcast_reaches_dropBetween :
    ∃ p, RegistryRun Within dropBetween.reverse p ∧ p.2.received 0 = 0 ∧ p.2.received 1 = 2 ∧
      (p.1.states 0).pending = 1 ∧ Reaches p.1 := by
  obtain ⟨p, hrun, h₀, h₁, hpending, hok⟩ : ∃ p, RegistryRun Within dropBetween.reverse p ∧
      p.2.received 0 = 0 ∧ p.2.received 1 = 2 ∧ (p.1.states 0).pending = 1 ∧
        Within p.1 .broadcast :=
    Run.exists_of_guarded dropBetween (.new, .zero) ⟨rfl, rfl⟩ (by decide +kernel)
  exact ⟨p, hrun, h₀, h₁, hpending, (broadcast_reaches hrun).1 hok⟩

/-- The 17th listener is refused, and then the first one gets no signal any more. -/
def refusedListener : List Act := List.replicate 17 .register

theorem refused_listener_stops_broadcast :
    ∃ p, RegistryRun Free refusedListener.reverse p ∧ Owned p.1 0 ∧ (broadcast p.1).isNone :=
  Run.exists_of_exec refusedListener (.new, .zero) ⟨rfl, rfl⟩ (by decide +kernel)

end Dtact.Signal
