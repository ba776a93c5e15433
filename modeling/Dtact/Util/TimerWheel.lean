import Dtact.Util.Timer

/-!
# The tick on which a sleep fires

A bucket is visited for the first time between 1 and 256 ticks after a registration, so a duration
of whole rotations finds it visited one rotation later than the count of the rounds assumes. A
`WheelAct` is what can happen to the wheel after a registration.
-/

namespace Dtact.Timer

open Transition

inductive WheelAct
  | tick
  | register (deadline : Nat)
  | advance (elapsed : Nat)
deriving DecidableEq, Repr

def St.move (s : St) : WheelAct → St
  | .tick => s.fire
  | .register deadline => s.register deadline
  | .advance elapsed => { s with now := s.now + elapsed }

def St.moves (s : St) (acts : List WheelAct) : St := acts.foldl St.move s

def ticks : List WheelAct → Nat
  | [] => 0
  | .tick :: acts => ticks acts + 1
  | .register _ :: acts | .advance _ :: acts => ticks acts

/-- An iteration of the worker is a tick or changes nothing. -/
theorem work_cases (s : St) : s.work = s ∨ s.work = s.move .tick := by
  unfold St.work
  split
  · exact .inl rfl
  · split
    · exact .inl rfl
    · exact .inr rfl

/-- The bucket that the next tick drains. -/
def St.dueSlot (s : St) : Nat := (s.wheel.currentTick + 1) % 2 ^ 64 % wheelSize

/-- How often the next tick stores `DONE` for the sleep `k`. -/
def St.marks (s : St) (k : Nat) : Nat :=
  (s.wheel.buckets s.dueSlot).countP fun node => node.rounds = 0 ∧ node.state = k

/-- A sleep state belongs to one registration. -/
structure St.WellFormed (s : St) : Prop where
  owned : ∀ slot, ∀ node ∈ s.wheel.buckets slot, node.state < s.registered
  tick_lt : s.wheel.currentTick < 2 ^ 64

/-- Whatever happens after the registration, the sleep is marked by the tick that advances the
counter to its target and by no other, and it is `DONE` from then on. -/
def FiresOnTarget (s : St) (deadline : Nat) : Prop :=
  ∀ acts, let s' := (s.register deadline).moves acts
    s'.wheel.currentTick = (s.wheel.currentTick + ticks acts) % 2 ^ 64 ∧
    s'.marks s.registered = (if ticks acts + 1 = ticksFromNow deadline s.now then 1 else 0) ∧
    (s'.status s.registered = .done ↔ ticksFromNow deadline s.now ≤ ticks acts)

/-! ## A tick -/

theorem dueSlot_eq (s : St) : s.dueSlot = (s.wheel.currentTick + 1) % wheelSize :=
  Nat.mod_mod_of_dvd _ (by decide)

theorem fire_bucket (s : St) (slot : Nat) :
    s.fire.wheel.buckets slot =
      if slot = s.dueSlot then
        ((s.wheel.buckets slot).filter fun node => node.rounds ≠ 0).map Node.wait
      else s.wheel.buckets slot := by
  show Function.update s.wheel.buckets s.dueSlot _ slot = _
  split
  · next h =>
    subst h
    rw [Function.update_self, foldl_bucket, List.append_nil]
    rfl
  · next h => rw [Function.update_of_ne h]

/-- A tick turns a sleep to `DONE` exactly if it marks it. -/
theorem fire_done_iff (s : St) (k : Nat) :
    s.fire.status k = .done ↔ s.status k = .done ∨ 0 < s.marks k := by
  show ((s.wheel.buckets s.dueSlot).reverse.foldl Batch.next _).status k = .done ↔ _
  rw [foldl_status, St.marks, List.countP_pos_iff]
  simp only [List.mem_reverse, decide_eq_true_eq]

/-! ## The node of a sleep -/

/-- The nodes of the sleep `k` in a bucket. -/
def St.nodesOf (s : St) (k slot : Nat) : List Node :=
  (s.wheel.buckets slot).filter fun node => node.state = k

theorem marks_eq (s : St) (k : Nat) :
    s.marks k = (s.nodesOf k s.dueSlot).countP fun node => node.rounds = 0 := by
  unfold St.marks St.nodesOf
  rw [List.countP_filter]
  congr 1
  funext node
  simp

theorem nodesOf_fire (s : St) (k slot : Nat) :
    s.fire.nodesOf k slot =
      if slot = s.dueSlot then
        ((s.nodesOf k slot).filter fun node => node.rounds ≠ 0).map Node.wait
      else s.nodesOf k slot := by
  unfold St.nodesOf
  rw [fire_bucket]
  split
  · rw [List.filter_map, List.filter_filter, List.filter_filter]
    congr 1
    refine List.filter_congr fun node _ => ?_
    exact Bool.and_comm ..
  · rfl

variable {s : St} {k left due now : Nat}

/-- Another registration leaves the nodes of a sleep alone. -/
theorem nodesOf_register (hk : k < s.registered) (deadline slot : Nat) :
    (s.register deadline).nodesOf k slot = s.nodesOf k slot := by
  unfold St.register
  split
  · rfl
  · show (Function.update s.wheel.buckets _ _ slot).filter _ = _
    rcases eq_or_ne slot ((s.wheel.currentTick + ticksFromNow deadline s.now) % 2 ^ 64 % wheelSize)
      with rfl | hne
    · rw [Function.update_self, List.filter_cons, if_neg (by simp [hk.ne'])]
      rfl
    · rw [Function.update_of_ne hne]
      rfl

/-- The sleep `k` waits for the tick that is `left` ticks ahead. -/
structure Waits (s : St) (k left : Nat) : Prop where
  pos : 1 ≤ left
  known : k < s.registered
  pending : s.status k = .pending
  place : ∀ slot, s.nodesOf k slot =
    if slot = (s.wheel.currentTick + left) % wheelSize then [⟨k, (left - 1) / wheelSize⟩] else []

/-- The sleep `k` has fired. -/
structure Fired (s : St) (k : Nat) : Prop where
  known : k < s.registered
  done : s.status k = .done
  gone : ∀ slot, s.nodesOf k slot = []

/-- The sleep `k` fires on the tick `due` after its registration; `now` ticks have passed. -/
def Due (s : St) (k due now : Nat) : Prop :=
  now < due ∧ Waits s k (due - now) ∨ due ≤ now ∧ Fired s k

theorem Waits.marks (h : Waits s k left) : s.marks k = if left = 1 then 1 else 0 := by
  have hpos := h.pos
  rw [marks_eq, h.place, dueSlot_eq]
  split
  · next hslot =>
    have hdvd : wheelSize * ((left - 1) / wheelSize) = left - 1 := by
      refine Nat.mul_div_cancel' ((Nat.modEq_iff_dvd' hpos).mp ?_)
      exact Nat.ModEq.add_left_cancel' s.wheel.currentTick hslot
    rcases eq_or_ne left 1 with rfl | hne
    · rfl
    · have hrounds : (left - 1) / wheelSize ≠ 0 := by
        intro h0
        rw [h0, Nat.mul_zero] at hdvd
        omega
      simp [hrounds, hne]
  · next hslot =>
    have hne : left ≠ 1 := by
      rintro rfl
      exact hslot rfl
    rw [if_neg hne]
    rfl

theorem Fired.marks (h : Fired s k) : s.marks k = 0 := by
  rw [marks_eq, h.gone]
  rfl

theorem fire_tick (s : St) :
    s.fire.wheel.currentTick = (s.wheel.currentTick + 1) % 2 ^ 64 := rfl

/-- One tick less to wait, or the sleep fires. -/
theorem Waits.fire (h : Waits s k left) :
    if 1 < left then Waits s.fire k (left - 1) else Fired s.fire k := by
  have hpos := h.pos
  have hmarks := h.marks
  have hdone := fire_done_iff s k
  split
  · next hlt =>
    refine ⟨by omega, h.known, ?_, fun slot => ?_⟩
    · rw [hmarks, if_neg (by omega), h.pending] at hdone
      cases hs : s.fire.status k with
      | pending => rfl
      | done => simpa using hdone.mp hs
    · -- the bucket stays the same one; a visit takes one round
      have hplace : (s.fire.wheel.currentTick + (left - 1)) % wheelSize =
          (s.wheel.currentTick + left) % wheelSize := by
        rw [fire_tick]
        simp only [wheelSize, wheelBits]
        omega
      rw [nodesOf_fire, h.place, hplace, dueSlot_eq]
      by_cases hslot : slot = (s.wheel.currentTick + left) % wheelSize
      · rw [if_pos hslot, if_pos hslot]
        by_cases hvisit : slot = (s.wheel.currentTick + 1) % wheelSize
        · have hrounds : (left - 1) / wheelSize ≠ 0 := by
            simp only [wheelSize, wheelBits] at hslot hvisit ⊢
            omega
          have hless : (left - 1) / wheelSize - 1 = (left - 1 - 1) / wheelSize := by
            simp only [wheelSize, wheelBits] at hslot hvisit ⊢
            omega
          rw [if_pos hvisit]
          simp [hrounds, Node.wait, hless]
        · have hsame : (left - 1) / wheelSize = (left - 1 - 1) / wheelSize := by
            simp only [wheelSize, wheelBits] at hslot hvisit ⊢
            omega
          rw [if_neg hvisit, hsame]
      · rw [if_neg hslot, if_neg hslot]
        split <;> rfl
  · next hle =>
    obtain rfl : left = 1 := by omega
    refine ⟨h.known, hdone.mpr (.inr (by rw [hmarks]; decide)), fun slot => ?_⟩
    rw [nodesOf_fire, h.place, dueSlot_eq]
    split
    · rfl
    · rfl

theorem Fired.fire (h : Fired s k) : Fired s.fire k where
  known := h.known
  done := (fire_done_iff s k).mpr (.inl h.done)
  gone slot := by
    rw [nodesOf_fire, h.gone]
    split <;> rfl

theorem register_status (hk : k < s.registered) (deadline : Nat) :
    (s.register deadline).status k = s.status k := by
  unfold St.register
  split <;> exact Function.update_of_ne hk.ne _ _

theorem register_registered (s : St) (deadline : Nat) :
    (s.register deadline).registered = s.registered + 1 := by
  unfold St.register
  split <;> rfl

theorem register_tick (s : St) (deadline : Nat) :
    (s.register deadline).wheel.currentTick = s.wheel.currentTick := by
  unfold St.register
  split <;> rfl

theorem Waits.register (h : Waits s k left) (deadline : Nat) :
    Waits (s.register deadline) k left where
  pos := h.pos
  known := by rw [register_registered]; exact h.known.trans (Nat.lt_succ_self _)
  pending := (register_status h.known deadline).trans h.pending
  place slot := by rw [nodesOf_register h.known, register_tick, h.place]

theorem Fired.register (h : Fired s k) (deadline : Nat) : Fired (s.register deadline) k where
  known := by rw [register_registered]; exact h.known.trans (Nat.lt_succ_self _)
  done := (register_status h.known deadline).trans h.done
  gone slot := by rw [nodesOf_register h.known, h.gone]

/-! ## Any sequence of moves -/

section

variable (h : Due s k due now)

include h

theorem Due.fire : Due s.fire k due (now + 1) := by
  rcases h with ⟨hlt, h⟩ | ⟨hge, h⟩
  · have hfire := h.fire
    split at hfire
    · refine .inl ⟨by omega, ?_⟩
      rw [← Nat.sub_sub]
      exact hfire
    · exact .inr ⟨by omega, hfire⟩
  · exact .inr ⟨by omega, h.fire⟩

theorem Due.register (deadline : Nat) : Due (s.register deadline) k due now :=
  h.imp (And.imp_right fun hw => hw.register deadline)
    (And.imp_right fun hf => hf.register deadline)

theorem Due.advance (elapsed : Nat) : Due { s with now := s.now + elapsed } k due now :=
  h.imp (And.imp_right fun hw => ⟨hw.pos, hw.known, hw.pending, hw.place⟩)
    (And.imp_right fun hf => ⟨hf.known, hf.done, hf.gone⟩)

/-- Whatever happens, the sleep waits for its tick and has fired after it. -/
theorem due_moves (acts : List WheelAct) : Due (s.moves acts) k due (now + ticks acts) := by
  induction acts generalizing s now with
  | nil => exact h
  | cons a acts ih =>
    cases a with
    | tick =>
      have hrest := ih h.fire
      rw [Nat.add_assoc, Nat.add_comm 1] at hrest
      exact hrest
    | register deadline => exact ih (h.register deadline)
    | advance elapsed => exact ih (h.advance elapsed)

theorem Due.marks : s.marks k = if now + 1 = due then 1 else 0 := by
  rcases h with ⟨hlt, h⟩ | ⟨hge, h⟩
  · have hiff : due - now = 1 ↔ now + 1 = due := by omega
    rw [h.marks]
    simp only [hiff]
  · rw [h.marks, if_neg (by omega)]

theorem Due.done_iff : s.status k = .done ↔ due ≤ now := by
  rcases h with ⟨hlt, h⟩ | ⟨hge, h⟩
  · rw [h.pending]
    constructor
    · intro hne
      cases hne
    · intro hle
      omega
  · exact ⟨fun _ => hge, fun _ => h.done⟩

end

theorem ticks_replicate (m : Nat) : ticks (List.replicate m .tick) = m := by
  induction m with
  | zero => rfl
  | succ m ih => exact congrArg Nat.succ ih

theorem moves_tick (s : St) (hs : s.wheel.currentTick < 2 ^ 64) (acts : List WheelAct) :
    (s.moves acts).wheel.currentTick = (s.wheel.currentTick + ticks acts) % 2 ^ 64 := by
  induction acts generalizing s with
  | nil => exact (Nat.mod_eq_of_lt hs).symm
  | cons a acts ih =>
    cases a with
    | tick =>
      have hrest := ih s.fire (Nat.mod_lt _ (by decide))
      rw [fire_tick, Nat.mod_add_mod, Nat.add_assoc, Nat.add_comm 1] at hrest
      exact hrest
    | register deadline =>
      have hrest := ih (s.register deadline) (by rw [register_tick]; exact hs)
      rw [register_tick] at hrest
      exact hrest
    | advance elapsed => exact ih { s with now := s.now + elapsed } hs

/-! ## A registration -/

theorem due_register (hs : s.WellFormed) {deadline : Nat} (hlater : s.now < deadline)
    (hpos : 1 ≤ ticksFromNow deadline s.now) :
    Due (s.register deadline) s.registered (firesAfter (ticksFromNow deadline s.now)) 0 := by
  have hnone (slot : Nat) : s.nodesOf s.registered slot = [] := by
    refine List.filter_eq_nil_iff.mpr fun node hnode => ?_
    simpa using (hs.owned slot node hnode).ne
  have hslot : (s.wheel.currentTick + ticksFromNow deadline s.now) % 2 ^ 64 % wheelSize =
      (s.wheel.currentTick + firesAfter (ticksFromNow deadline s.now)) % wheelSize := by
    rw [Nat.mod_mod_of_dvd _ (by decide)]
    unfold firesAfter
    split
    · rw [← Nat.add_assoc, Nat.add_mod_right]
    · rfl
  have hrounds : ticksFromNow deadline s.now / wheelSize =
      (firesAfter (ticksFromNow deadline s.now) - 1) / wheelSize := by
    unfold firesAfter
    split
    · next h =>
      simp only [wheelSize, wheelBits] at h ⊢
      omega
    · next h =>
      simp only [wheelSize, wheelBits] at h ⊢
      omega
  have hafter : 1 ≤ firesAfter (ticksFromNow deadline s.now) := by
    unfold firesAfter
    split <;> omega
  refine .inl ⟨hafter, ?_⟩
  rw [Nat.sub_zero]
  refine ⟨hafter, by rw [register_registered]; exact Nat.lt_succ_self _, ?_, fun slot => ?_⟩
  · unfold St.register
    rw [if_neg (by omega)]
    exact Function.update_self ..
  · rw [register_tick, ← hslot, ← hrounds]
    unfold St.register
    rw [if_neg (by omega)]
    show (Function.update s.wheel.buckets _ _ slot).filter _ = _
    split
    · next heq =>
      subst heq
      rw [Function.update_self, List.filter_cons, if_pos (by simp)]
      exact congrArg _ (hnone _)
    · next hne =>
      rw [Function.update_of_ne hne]
      exact hnone slot

/-- **Exact ticks.** For every state of the wheel and every sleep that is registered at least one
tick ahead: in every later sequence of ticks and registrations the sleep is marked exactly once,
by the tick that advances the counter to its target, if and only if the number of ticks is not a
multiple of the rotation. -/
theorem fires_on_target_iff {s : St} (hs : s.WellFormed) {deadline : Nat}
    (hlater : s.now < deadline) (hpos : 1 ≤ ticksFromNow deadline s.now) :
    FiresOnTarget s deadline ↔ ticksFromNow deadline s.now % wheelSize ≠ 0 := by
  have hdue (acts : List WheelAct) : Due ((s.register deadline).moves acts) s.registered
      (firesAfter (ticksFromNow deadline s.now)) (ticks acts) := by
    have h := due_moves (due_register hs hlater hpos) acts
    rwa [Nat.zero_add] at h
  constructor
  · -- a sleep of whole rotations is not marked by the tick that reaches its target
    intro h hzero
    obtain ⟨-, hmarks, -⟩ := h (List.replicate (ticksFromNow deadline s.now - 1) .tick)
    have hcount : ticks (List.replicate (ticksFromNow deadline s.now - 1) .tick) + 1 =
        ticksFromNow deadline s.now := by
      rw [ticks_replicate]
      omega
    have hlate : ticksFromNow deadline s.now ≠ firesAfter (ticksFromNow deadline s.now) := by
      have hsize : 0 < wheelSize := by decide
      unfold firesAfter
      rw [if_pos hzero]
      omega
    rw [(hdue _).marks, hcount, if_pos rfl, if_neg hlate] at hmarks
    cases hmarks
  · intro hne acts
    have hexact : firesAfter (ticksFromNow deadline s.now) = ticksFromNow deadline s.now := by
      unfold firesAfter
      rw [if_neg hne]
    have h := hdue acts
    rw [hexact] at h
    refine ⟨?_, h.marks, h.done_iff⟩
    have htick := moves_tick (s.register deadline) (by rw [register_tick]; exact hs.tick_lt) acts
    rwa [register_tick] at htick

theorem wellFormed_new (now : Nat) : (St.new now).WellFormed where
  owned _ _ h := by cases h
  tick_lt := Nat.two_pow_pos 64

/-- A sleep of 3 ms on a new wheel. -/
theorem fires_on_target_iff_three : FiresOnTarget (.new 0) 3000000 :=
  (fires_on_target_iff (wellFormed_new 0) (by decide) (by decide)).mpr (by decide)

/-- A sleep of 256 ms on a new wheel, and the worker after 256 ms. -/
def wholeRotation : List Act :=
  [.register 256000000, .advance 256000000] ++ List.replicate 256 .work

/-- The tick that advances the counter to 256 does not mark the sleep: it waits for another
rotation. -/
theorem whole_rotation_fires_late :
    (exec step wholeRotation (.new 0)).map (fun s => (s.wheel.currentTick, s.status 0)) =
      some (256, .pending) ∧
    ticksFromNow 256000000 0 = 256 ∧ ¬ FiresOnTarget (.new 0) 256000000 := by
  refine ⟨by decide +kernel, by decide, fun h => ?_⟩
  have hlater : (St.new 0).now < 256000000 := by decide
  have hdue := due_moves (due_register (wellFormed_new 0) hlater (by decide))
    (List.replicate 256 .tick)
  have hdone := (h (List.replicate 256 .tick)).2.2.mpr (by rw [ticks_replicate]; decide)
  have hle := hdue.done_iff.mp hdone
  rw [ticks_replicate] at hle
  exact absurd hle (by decide)

/-! ## Reachable wheels -/

theorem St.WellFormed.fire (h : s.WellFormed) : s.fire.WellFormed where
  owned slot node hnode := by
    rw [fire_bucket] at hnode
    split at hnode
    · obtain ⟨old, hold, rfl⟩ := List.mem_map.mp hnode
      exact h.owned slot old (List.mem_filter.mp hold).1
    · exact h.owned slot node hnode
  tick_lt := Nat.mod_lt _ (by decide)

theorem St.WellFormed.register (h : s.WellFormed) (deadline : Nat) :
    (s.register deadline).WellFormed where
  owned slot node hnode := by
    rw [register_registered]
    unfold St.register at hnode
    split at hnode
    · exact (h.owned slot node hnode).trans (Nat.lt_succ_self _)
    · change node ∈ Function.update s.wheel.buckets _ _ slot at hnode
      rw [Function.update_apply] at hnode
      split at hnode
      · rcases List.mem_cons.mp hnode with rfl | hold
        · exact Nat.lt_succ_self _
        · exact (h.owned _ node hold).trans (Nat.lt_succ_self _)
      · exact (h.owned slot node hnode).trans (Nat.lt_succ_self _)
  tick_lt := by rw [register_tick]; exact h.tick_lt

/-- Every wheel that the timer can reach is well formed. -/
theorem wellFormed_run {tr : List Act} (h : Run Initial step Free tr s) : s.WellFormed := by
  refine Run.invariant (I := fun _ s => s.WellFormed) ?_ ?_ h
  · rintro _ ⟨now, rfl⟩
    exact wellFormed_new now
  · intro _ s a s' hs _ hst
    cases a with
    | register deadline =>
      cases hst
      exact hs.register deadline
    | advance elapsed =>
      cases hst
      exact ⟨hs.owned, hs.tick_lt⟩
    | work =>
      cases hst
      rcases work_cases s with he | he
      · rw [he]
        exact hs
      · rw [he]
        exact hs.fire

end Dtact.Timer
