import Mathlib.Data.List.Nodup
import Mathlib.Logic.Function.Basic
import Mathlib.Order.Nat

/-!
# Slots handed over between users and a worker

A user submits an operation on its slot and keeps the slot until that is completed, or marks it as
dropped and leaves it to the worker. The worker sets `completed` and then reads `dropped`; the user
reads `completed` and then sets `dropped`. Who reads the other's flag frees the slot. The premises
of `Step.publish` and `Step.abandon` say that the two do not pass each other.
-/

namespace Handover

/-- What a user holds: a slot whose flags are still to be cleared, a clean slot, or a slot with
an operation. -/
inductive Hold
  | none
  | taken (i : Nat)
  | half (i : Nat)
  | clean (i : Nat)
  | working (i k : Nat)
  /-- The operation was seen completed; the slot is going to be freed. -/
  | seen (i k : Nat)
  /-- The operation was not seen completed; the slot is going to be marked. -/
  | leaving (i k : Nat)
deriving DecidableEq

def Hold.slot : Hold → Option Nat
  | .none => Option.none
  | .taken i | .half i | .clean i | .working i _ | .seen i _ | .leaving i _ => some i

@[simp]
theorem Hold.slot_none : Hold.none.slot = Option.none := rfl

def Hold.op : Hold → Option Nat
  | .working _ k | .seen _ k | .leaving _ k => some k
  | .none | .taken _ | .half _ | .clean _ => Option.none

/-- What the worker does with operation `k` on slot `i`. -/
inductive Job
  | idle
  | before (k i : Nat)
  | looking (k i : Nat)
  | freeing (k i : Nat)
deriving DecidableEq

def Job.handles : Job → Option (Nat × Nat)
  | .idle => none
  | .before k i | .looking k i | .freeing k i => some (k, i)

variable {υ : Type}

structure St (υ : Type) where
  free : List Nat
  completed : Nat → Bool
  dropped : Nat → Bool
  /-- The slots of the submitted operations that the worker has not begun to process. -/
  inFlight : Nat → Option Nat
  issued : Nat
  hold : υ → Hold
  job : Job
  submitter : Nat → Option υ
  abandoned : List Nat
  processed : List Nat
  /-- The operations on behalf of which a slot has been freed. -/
  released : List Nat

/-- The worker has not yet set `completed` for the operation. -/
def St.Pending (s : St υ) (k i : Nat) : Prop := s.inFlight k = some i ∨ s.job = .before k i

def St.Unprocessed (s : St υ) (k i : Nat) : Prop :=
  s.inFlight k = some i ∨ s.job.handles = some (k, i)

/-- The operation is not processed and its user has left. -/
def St.Orphan (s : St υ) (k i : Nat) : Prop := k ∈ s.abandoned ∧ s.Unprocessed k i

section

variable [DecidableEq υ]

def St.set (s : St υ) (u : υ) (x : Hold) : St υ := { s with hold := Function.update s.hold u x }

inductive Step : St υ → St υ → Prop
  | stay {s : St υ} : Step s s
  | take {s : St υ} {u : υ} {i : Nat} {rest : List Nat} :
      s.hold u = .none → s.free = i :: rest → Step s { s.set u (.taken i) with free := rest }
  | clearCompleted {s : St υ} {u : υ} {i : Nat} : s.hold u = .taken i →
      Step s { s.set u (.half i) with completed := Function.update s.completed i false }
  | clearDropped {s : St υ} {u : υ} {i : Nat} : s.hold u = .half i →
      Step s { s.set u (.clean i) with dropped := Function.update s.dropped i false }
  | submit {s : St υ} {u : υ} {i : Nat} : s.hold u = .clean i →
      Step s { s.set u (.working i s.issued) with
        inFlight := Function.update s.inFlight s.issued (some i)
        issued := s.issued + 1
        submitter := Function.update s.submitter s.issued (some u) }
  | giveBack {s : St υ} {u : υ} {i : Nat} : s.hold u = .clean i →
      Step s { s.set u .none with free := i :: s.free }
  | see {s : St υ} {u : υ} {i k : Nat} : s.hold u = .working i k → s.completed i = true →
      Step s (s.set u (.seen i k))
  | finish {s : St υ} {u : υ} {i k : Nat} : s.hold u = .seen i k →
      Step s { s.set u .none with free := i :: s.free, released := k :: s.released }
  | leave {s : St υ} {u : υ} {i k : Nat} : s.hold u = .working i k → s.completed i = false →
      Step s (s.set u (.leaving i k))
  | abandon {s : St υ} {u : υ} {i k : Nat} : s.hold u = .leaving i k →
      (∀ k', s.job ≠ .looking k' i) →
      Step s { s.set u .none with
        dropped := Function.update s.dropped i true
        abandoned := k :: s.abandoned }
  | start {s : St υ} {i k : Nat} : s.job = .idle → s.inFlight k = some i →
      Step s { s with job := .before k i, inFlight := Function.update s.inFlight k none }
  | publish {s : St υ} {i k : Nat} : s.job = .before k i → (∀ u k', s.hold u ≠ .leaving i k') →
      Step s { s with job := .looking k i, completed := Function.update s.completed i true }
  | keep {s : St υ} {i k : Nat} : s.job = .looking k i → s.dropped i = false →
      Step s { s with job := .idle, processed := k :: s.processed }
  | claim {s : St υ} {i k : Nat} : s.job = .looking k i → s.dropped i = true →
      Step s { s with job := .freeing k i }
  | release {s : St υ} {i k : Nat} : s.job = .freeing k i →
      Step s { s with
        job := .idle
        free := i :: s.free
        released := k :: s.released
        processed := k :: s.processed }

end

/-! ## The invariant -/

inductive Owner (υ : Type)
  | outside
  | free
  | user (u : υ)
  | op (k : Nat)

/-- The operation is the user's and has not been given up. -/
structure St.Live (s : St υ) (u : υ) (k : Nat) : Prop where
  lt : k < s.issued
  submitter : s.submitter k = some u
  abandoned : k ∉ s.abandoned
  released : k ∉ s.released

def St.HoldOk (s : St υ) (u : υ) : Hold → Prop
  | .none | .taken _ => True
  | .half i => s.completed i = false
  | .clean i => s.completed i = false ∧ s.dropped i = false
  | .working i k => s.dropped i = false ∧ (s.completed i = false ↔ s.Pending k i) ∧ s.Live u k
  | .seen i k => s.dropped i = false ∧ ¬ s.Pending k i ∧ s.Live u k
  | .leaving i k => s.dropped i = false ∧ s.Pending k i ∧ s.Live u k

/-- The free slots are free, once each, and the users own what they hold. -/
structure Owns (owner : Nat → Owner υ) (free : List Nat) (hold : υ → Hold) : Prop where
  free : ∀ i, free.count i = 1 ∧ owner i = .free ∨ free.count i = 0 ∧ owner i ≠ .free
  hold : ∀ u i, (hold u).slot = some i ↔ owner i = .user u

structure Inv (owner : Nat → Owner υ) (s : St υ) : Prop where
  owns : Owns owner s.free s.hold
  op : ∀ k i, s.Orphan k i ↔ owner i = .op k
  opOk : ∀ k i, owner i = .op k → s.dropped i = true ∧ k < s.issued ∧ k ∉ s.released
  holdOk : ∀ u, s.HoldOk u (s.hold u)
  pending : ∀ k i, s.Pending k i → owner i = .op k ∨
    ∃ u, s.hold u = .working i k ∨ s.hold u = .leaving i k
  begun : ∀ k i, s.job.handles = some (k, i) → s.inFlight k = none
  looking : ∀ k i, s.job = .looking k i → owner i = .op k ∨ k ∉ s.abandoned ∧ s.dropped i = false
  freeing : ∀ k i, s.job = .freeing k i → owner i = .op k
  lt : ∀ k i, s.Unprocessed k i → k < s.issued
  processed : ∀ k ∈ s.processed, ∀ i, ¬ s.Unprocessed k i
  once : ∀ k < s.issued, (∀ u, (s.hold u).op ≠ some k) → (∀ i, owner i ≠ .op k) →
    s.released.count k = 1
  fresh : ∀ k, s.issued ≤ k → k ∉ s.abandoned ∧ k ∉ s.processed ∧ k ∉ s.released

section

variable {owner : Nat → Owner υ} {s s' : St υ} {u v : υ} {x x' : Hold} {i j k : Nat}

theorem Hold.slot_of_op (h : x = .working i k ∨ x = .leaving i k) : x.slot = some i := by
  rcases h with rfl | rfl <;> rfl

theorem Inv.slot_unique (hinv : Inv owner s) (hu : (s.hold u).slot = some i)
    (hv : (s.hold v).slot = some i) : u = v := by
  have hu := (hinv.owns.hold u i).mp hu
  have hv := (hinv.owns.hold v i).mp hv
  rw [hu] at hv
  exact Owner.user.inj hv

/-- The user of a slot with a pending operation holds that operation. -/
theorem Inv.pending_of_hold (hinv : Inv owner s) (hu : s.hold u = x) (hx : x.slot = some i)
    (hpending : s.Pending k i) : x = .working i k ∨ x = .leaving i k := by
  subst hu
  have howner := (hinv.owns.hold u i).mp hx
  rcases hinv.pending k i hpending with hop | ⟨v, hv⟩
  · cases howner.symm.trans hop
  · rwa [hinv.slot_unique hx (Hold.slot_of_op hv)]

theorem Inv.live (hinv : Inv owner s) (hop : (s.hold u).op = some k) : s.Live u k := by
  have hok := hinv.holdOk u
  cases hx : s.hold u with
  | none | taken | half | clean =>
    rw [hx] at hop
    cases hop
  | working i k' | seen i k' | leaving i k' =>
    rw [hx] at hop hok
    obtain rfl := Option.some.inj hop
    exact hok.2.2

/-- What a user knows depends on the flags of its slot and on its operation. -/
theorem St.HoldOk.congr (hok : s.HoldOk u x)
    (hflags : ∀ i, x.slot = some i → s'.completed i = s.completed i ∧ s'.dropped i = s.dropped i)
    (hop : ∀ i k, x.slot = some i → x.op = some k →
      (s'.Pending k i ↔ s.Pending k i) ∧ (s.Live u k → s'.Live u k)) : s'.HoldOk u x := by
  cases x with
  | none | taken => trivial
  | half i => exact (hflags i rfl).1.trans hok
  | clean i => exact ⟨(hflags i rfl).1.trans hok.1, (hflags i rfl).2.trans hok.2⟩
  | working i k =>
    obtain ⟨hcompleted, hdropped⟩ := hflags i rfl
    obtain ⟨hpending, hlive⟩ := hop i k rfl rfl
    refine ⟨hdropped.trans hok.1, ?_, hlive hok.2.2⟩
    rw [hcompleted, hpending]
    exact hok.2.1
  | seen i k =>
    obtain ⟨hpending, hlive⟩ := hop i k rfl rfl
    exact ⟨(hflags i rfl).2.trans hok.1, fun h => hok.2.1 (hpending.mp h), hlive hok.2.2⟩
  | leaving i k =>
    obtain ⟨hpending, hlive⟩ := hop i k rfl rfl
    exact ⟨(hflags i rfl).2.trans hok.1, hpending.mpr hok.2.1, hlive hok.2.2⟩

variable {free : List Nat} {hold : υ → Hold} {o : Owner υ}

theorem Owns.update {free' : List Nat} {hold' : υ → Hold} (h : Owns owner free hold)
    (hfree : ∀ j ≠ i, free'.count j = free.count j)
    (hfree_i : free'.count i = 1 ∧ o = .free ∨ free'.count i = 0 ∧ o ≠ .free)
    (hhold : ∀ v, ∀ j ≠ i, (hold' v).slot = some j ↔ (hold v).slot = some j)
    (hhold_i : ∀ v, (hold' v).slot = some i ↔ o = .user v) :
    Owns (Function.update owner i o) free' hold' := by
  refine ⟨fun j => ?_, fun v j => ?_⟩
  · rcases eq_or_ne j i with rfl | hne
    · rwa [Function.update_self]
    · rw [hfree j hne, Function.update_of_ne hne]
      exact h.free j
  · rcases eq_or_ne j i with rfl | hne
    · rw [Function.update_self]
      exact hhold_i v
    · rw [hhold v j hne, Function.update_of_ne hne]
      exact h.hold v j

theorem Owns.not_free (h : Owns owner free hold) (hi : owner i ≠ .free) : free.count i = 0 := by
  rcases h.free i with ⟨-, hfree⟩ | ⟨hcount, -⟩
  · exact absurd hfree hi
  · exact hcount

theorem Owns.release (h : Owns owner free hold) (hi : owner i = .op k) :
    Owns (Function.update owner i .free) (i :: free) hold := by
  have hcount := h.not_free (i := i) (by simp [hi])
  refine h.update (fun j hne => List.count_cons_of_ne hne.symm)
    (.inl ⟨by rw [List.count_cons_self, hcount], rfl⟩) (fun _ _ _ => Iff.rfl) fun v => ?_
  rw [h.hold v i, hi]
  simp

/-- A change of the owner that is not about operations. -/
theorem Owner.update_op_iff (ho : ∀ k, o ≠ .op k) (hi : ∀ k, owner i ≠ .op k) :
    Function.update owner i o j = .op k ↔ owner j = .op k := by
  rcases eq_or_ne j i with rfl | hne
  · simp [ho, hi]
  · rw [Function.update_of_ne hne]

theorem Owner.update_ne_outside (ho : o ≠ .outside) (hj : owner j ≠ .outside) :
    Function.update owner i o j ≠ .outside := by
  rcases eq_or_ne j i with rfl | hne
  · rwa [Function.update_self]
  · rwa [Function.update_of_ne hne]

/-- An operation has one slot. -/
theorem Inv.unprocessed_unique (hinv : Inv owner s) (hi : s.Unprocessed k i)
    (hj : s.Unprocessed k j) : i = j := by
  rcases hi with hi | hi <;> rcases hj with hj | hj
  · exact Option.some.inj (hi.symm.trans hj)
  · cases hi.symm.trans (hinv.begun k j hj)
  · cases hj.symm.trans (hinv.begun k i hi)
  · exact (Prod.mk.inj (Option.some.inj (hi.symm.trans hj))).2

theorem St.Pending.unprocessed (h : s.Pending k i) : s.Unprocessed k i :=
  h.imp_right fun hjob => by rw [hjob]; rfl

/-! ### The worker -/

theorem Inv.start (hinv : Inv owner s) (hjob : s.job = .idle) (hk : s.inFlight k = some i) :
    Inv owner { s with job := .before k i, inFlight := Function.update s.inFlight k none } := by
  have hflight {k' j : Nat} : Function.update s.inFlight k none k' = some j ∨ (k', j) = (k, i) ↔
      s.inFlight k' = some j := by
    rcases eq_or_ne k' k with rfl | hne
    · rw [Function.update_self, hk]
      simp [eq_comm]
    · rw [Function.update_of_ne hne]
      simp [hne]
  have hpending {k' j : Nat} :
      St.Pending { s with
        job := .before k i
        inFlight := Function.update s.inFlight k none } k' j ↔ s.Pending k' j := by
    rw [St.Pending, St.Pending, hjob, ← hflight]
    simp [eq_comm]
  have hunprocessed {k' j : Nat} :
      St.Unprocessed { s with
        job := .before k i
        inFlight := Function.update s.inFlight k none } k' j ↔ s.Unprocessed k' j := by
    rw [St.Unprocessed, St.Unprocessed, hjob, ← hflight]
    simp [Job.handles, eq_comm]
  exact { hinv with
    op := fun k' j => (and_congr_right fun _ => hunprocessed).trans (hinv.op k' j)
    holdOk := fun v => (hinv.holdOk v).congr (fun _ _ => ⟨rfl, rfl⟩) fun _ _ _ _ =>
      ⟨hpending, fun hlive => { hlive with }⟩
    pending := fun k' j hp => hinv.pending k' j (hpending.mp hp)
    begun := fun k' j hj => by
      obtain ⟨rfl, rfl⟩ := Prod.mk.inj (Option.some.inj hj)
      exact Function.update_self _ _ _
    looking := fun k' j hj => by cases hj
    freeing := fun k' j hj => by cases hj
    lt := fun k' j hun => hinv.lt k' j (hunprocessed.mp hun)
    processed := fun k' hk' j hun => hinv.processed k' hk' j (hunprocessed.mp hun) }

/-- The worker sets `completed`. No user is leaving, so the user of the slot will see it. -/
theorem Inv.publish (hinv : Inv owner s) (hjob : s.job = .before k i)
    (hleave : ∀ u k', s.hold u ≠ .leaving i k') :
    Inv owner { s with
      job := .looking k i
      completed := Function.update s.completed i true } := by
  have hpend : s.Pending k i := .inr hjob
  have hflight : s.inFlight k = none := hinv.begun k i (by rw [hjob]; rfl)
  have hpending {k' j : Nat} :
      St.Pending { s with
        job := .looking k i
        completed := Function.update s.completed i true } k' j ↔ s.inFlight k' = some j := by
    simp [St.Pending]
  have hhandles {k' j : Nat} : (Job.looking k i).handles = some (k', j) ↔
      s.job.handles = some (k', j) := by
    rw [hjob]
    rfl
  refine { hinv with
    op := fun k' j => (and_congr_right fun _ => or_congr_right hhandles).trans (hinv.op k' j)
    holdOk := fun v => ?_
    pending := fun k' j hp => hinv.pending k' j (.inl (hpending.mp hp))
    begun := fun k' j hj => hinv.begun k' j (hhandles.mp hj)
    looking := fun k' j hj => ?_
    freeing := fun k' j hj => by cases hj
    lt := fun k' j hun => hinv.lt k' j (hun.imp_right hhandles.mp)
    processed := fun k' hk' j hun => hinv.processed k' hk' j (hun.imp_right hhandles.mp) }
  · by_cases hslot : (s.hold v).slot = some i
    · obtain hv : s.hold v = .working i k :=
        (hinv.pending_of_hold rfl hslot hpend).resolve_right (hleave v k)
      obtain ⟨hdropped, -, hlive⟩ : s.HoldOk v (.working i k) := hv ▸ hinv.holdOk v
      simp only [hv]
      refine ⟨hdropped, ?_, { hlive with }⟩
      rw [hpending, hflight]
      simp [Function.update_self]
    · refine (hinv.holdOk v).congr (fun j hj => ⟨Function.update_of_ne ?_ _ _, rfl⟩)
        fun j k' hj _ => ⟨?_, fun hlive => { hlive with }⟩
      · rintro rfl
        exact hslot hj
      · rw [hpending, St.Pending, hjob]
        refine ⟨.inl, fun hp => hp.resolve_right fun heq => ?_⟩
        obtain ⟨-, rfl⟩ := Job.before.inj heq
        exact hslot hj
  · obtain ⟨rfl, rfl⟩ := Job.looking.inj hj
    rcases hinv.pending _ _ hpend with howner | ⟨v, hv⟩
    · exact .inl howner
    · have hv := hv.resolve_right (hleave v _)
      obtain ⟨hdropped, -, hlive⟩ : s.HoldOk v (.working i k) := hv ▸ hinv.holdOk v
      exact .inr ⟨hlive.abandoned, hdropped⟩

theorem Inv.keep (hinv : Inv owner s) (hjob : s.job = .looking k i) (hd : s.dropped i = false) :
    Inv owner { s with job := .idle, processed := k :: s.processed } := by
  have habandoned : k ∉ s.abandoned := by
    rcases hinv.looking k i hjob with howner | ⟨hk, -⟩
    · have hd' := (hinv.opOk k i howner).1
      rw [hd] at hd'
      cases hd'
    · exact hk
  have hflight : s.inFlight k = none := hinv.begun k i (by rw [hjob]; rfl)
  have hpending {k' j : Nat} :
      St.Pending { s with job := .idle, processed := k :: s.processed } k' j ↔ s.Pending k' j := by
    simp [St.Pending, hjob]
  have hless {k' j : Nat}
      (h : St.Unprocessed { s with job := .idle, processed := k :: s.processed } k' j) :
      s.inFlight k' = some j := by
    simpa [St.Unprocessed, Job.handles] using h
  refine { hinv with
    op := fun k' j => ?_
    holdOk := fun v => (hinv.holdOk v).congr (fun _ _ => ⟨rfl, rfl⟩) fun _ _ _ _ =>
      ⟨hpending, fun hlive => { hlive with }⟩
    pending := fun k' j hp => hinv.pending k' j (hpending.mp hp)
    begun := fun k' j hj => by cases hj
    looking := fun k' j hj => by cases hj
    freeing := fun k' j hj => by cases hj
    lt := fun k' j hun => hinv.lt k' j (.inl (hless hun))
    processed := fun k' hk' j hun => ?_
    fresh := fun k' hk' => ?_ }
  · rw [← hinv.op k' j]
    refine and_congr_right fun hk' => ⟨fun hun => .inl (hless hun), fun hun => .inl ?_⟩
    refine hun.resolve_right fun hhandles => ?_
    rw [hjob] at hhandles
    obtain ⟨rfl, rfl⟩ := Prod.mk.inj (Option.some.inj hhandles)
    exact habandoned hk'
  · rcases List.mem_cons.mp hk' with rfl | hk'
    · cases hflight.symm.trans (hless hun)
    · exact hinv.processed k' hk' j (.inl (hless hun))
  · obtain ⟨habandoned, hprocessed, hreleased⟩ := hinv.fresh k' hk'
    refine ⟨habandoned, List.not_mem_cons_of_ne_of_not_mem ?_ hprocessed, hreleased⟩
    rintro rfl
    exact absurd (hinv.lt k' i (.inr (by rw [hjob]; rfl))) (Nat.not_lt.mpr hk')

/-- The worker finds the slot marked; so its own operation has been left. -/
theorem Inv.claim (hinv : Inv owner s) (hjob : s.job = .looking k i) (hd : s.dropped i = true) :
    Inv owner { s with job := .freeing k i } := by
  have howner : owner i = .op k := by
    rcases hinv.looking k i hjob with howner | ⟨-, hd'⟩
    · exact howner
    · cases hd.symm.trans hd'
  have hpending {k' j : Nat} : St.Pending { s with job := .freeing k i } k' j ↔ s.Pending k' j := by
    simp [St.Pending, hjob]
  have hhandles {k' j : Nat} : (Job.freeing k i).handles = some (k', j) ↔
      s.job.handles = some (k', j) := by
    rw [hjob]
    rfl
  exact { hinv with
    op := fun k' j => (and_congr_right fun _ => or_congr_right hhandles).trans (hinv.op k' j)
    holdOk := fun v => (hinv.holdOk v).congr (fun _ _ => ⟨rfl, rfl⟩) fun _ _ _ _ =>
      ⟨hpending, fun hlive => { hlive with }⟩
    pending := fun k' j hp => hinv.pending k' j (hpending.mp hp)
    begun := fun k' j hj => hinv.begun k' j (hhandles.mp hj)
    looking := fun k' j hj => by cases hj
    freeing := fun k' j hj => by
      obtain ⟨rfl, rfl⟩ := Job.freeing.inj hj
      exact howner
    lt := fun k' j hun => hinv.lt k' j (hun.imp_right hhandles.mp)
    processed := fun k' hk' j hun => hinv.processed k' hk' j (hun.imp_right hhandles.mp) }

theorem Inv.release (hinv : Inv owner s) (hjob : s.job = .freeing k i) :
    Inv (Function.update owner i .free)
      { s with
        job := .idle
        free := i :: s.free
        released := k :: s.released
        processed := k :: s.processed } := by
  have howner := hinv.freeing k i hjob
  have habandoned := ((hinv.op k i).mpr howner).1
  obtain ⟨-, hlt, hreleased⟩ := hinv.opOk k i howner
  have hflight : s.inFlight k = none := hinv.begun k i (by rw [hjob]; rfl)
  have hhandles {k' j : Nat} (h : s.job.handles = some (k', j)) : k' = k ∧ j = i := by
    rw [hjob] at h
    obtain ⟨rfl, rfl⟩ := Prod.mk.inj (Option.some.inj h)
    exact ⟨rfl, rfl⟩
  have hop {k' j : Nat} : Function.update owner i .free j = .op k' ↔ j ≠ i ∧ owner j = .op k' := by
    rcases eq_or_ne j i with rfl | hne
    · simp
    · simp [hne]
  have hunique {j : Nat} (hj : owner j = .op k) : j = i :=
    hinv.unprocessed_unique ((hinv.op k j).mpr hj).2 ((hinv.op k i).mpr howner).2
  refine { hinv with
    owns := hinv.owns.release howner
    op := fun k' j => ?_
    opOk := fun k' j hj => ?_
    holdOk := fun v => ?_
    pending := fun k' j hp => ?_
    begun := fun k' j hj => by cases hj
    looking := fun k' j hj => by cases hj
    freeing := fun k' j hj => by cases hj
    lt := fun k' j hun => hinv.lt k' j (.inl (hun.resolve_right (by simp [Job.handles])))
    processed := fun k' hk' j hun => ?_
    once := fun k' hk' hheld hnot => ?_
    fresh := fun k' hk' => ?_ }
  · rw [hop, ← hinv.op k' j]
    constructor
    · rintro ⟨hk', hun⟩
      have hun := hun.resolve_right (by simp [Job.handles])
      refine ⟨?_, hk', .inl hun⟩
      rintro rfl
      obtain rfl := Owner.op.inj (howner.symm.trans ((hinv.op k' j).mp ⟨hk', .inl hun⟩))
      cases hflight.symm.trans hun
    · rintro ⟨hne, hk', hun⟩
      exact ⟨hk', .inl (hun.resolve_right fun hh => hne (hhandles hh).2)⟩
  · obtain ⟨hne, hj⟩ := hop.mp hj
    obtain ⟨hdropped, hlt', hreleased'⟩ := hinv.opOk k' j hj
    refine ⟨hdropped, hlt', List.not_mem_cons_of_ne_of_not_mem ?_ hreleased'⟩
    rintro rfl
    exact hne (hunique hj)
  · refine (hinv.holdOk v).congr (fun _ _ => ⟨rfl, rfl⟩) fun _ k' _ _ =>
      ⟨by simp [St.Pending, hjob], fun hlive => { hlive with released := ?_ }⟩
    refine List.not_mem_cons_of_ne_of_not_mem ?_ hlive.released
    rintro rfl
    exact hlive.abandoned habandoned
  · have hp' : s.inFlight k' = some j := hp.resolve_right (by simp)
    refine (hinv.pending k' j (.inl hp')).imp_left fun hj => hop.mpr ⟨?_, hj⟩
    rintro rfl
    obtain rfl := Owner.op.inj (howner.symm.trans hj)
    cases hflight.symm.trans hp'
  · have hun := hun.resolve_right (by simp [Job.handles])
    rcases List.mem_cons.mp hk' with rfl | hk'
    · cases hflight.symm.trans hun
    · exact hinv.processed k' hk' j (.inl hun)
  · rcases eq_or_ne k' k with rfl | hne
    · rw [List.count_cons_self, List.count_eq_zero.mpr hreleased]
    · rw [List.count_cons_of_ne hne.symm]
      refine hinv.once k' hk' hheld fun j hj => hnot j (hop.mpr ⟨?_, hj⟩)
      rintro rfl
      exact hne (Owner.op.inj (hj.symm.trans howner))
  · obtain ⟨habandoned', hprocessed, hreleased'⟩ := hinv.fresh k' hk'
    have hne : k' ≠ k := fun heq => absurd (heq ▸ hlt) (Nat.not_lt.mpr hk')
    simp only [List.mem_cons, not_or]
    exact ⟨habandoned', ⟨hne, hprocessed⟩, hne, hreleased'⟩

/-! ### The users -/

variable [DecidableEq υ]

theorem St.set_hold_self (s : St υ) (u : υ) (x : Hold) : (s.set u x).hold u = x := by
  simp only [St.set, Function.update_self]

theorem St.set_hold_of_ne (s : St υ) {u v : υ} (x : Hold) (hne : v ≠ u) :
    (s.set u x).hold v = s.hold v := by
  simp only [St.set, Function.update_of_ne hne]

/-- Who holds an operation keeps it when another user moves. -/
theorem St.held_set (hv : s.hold v = .working i k ∨ s.hold v = .leaving i k)
    (hu : ¬ (s.hold u = .working i k ∨ s.hold u = .leaving i k)) :
    ∃ v, (s.set u x).hold v = .working i k ∨ (s.set u x).hold v = .leaving i k := by
  refine ⟨v, ?_⟩
  rwa [s.set_hold_of_ne x]
  rintro rfl
  exact hu hv

theorem St.op_ne_of_set (h : ∀ v, ((s.set u x).hold v).op ≠ some k)
    (hu : (s.hold u).op ≠ some k) (v : υ) : (s.hold v).op ≠ some k := by
  rcases eq_or_ne v u with rfl | hne
  · exact hu
  · have hv := h v
    rwa [s.set_hold_of_ne x hne] at hv

theorem Owns.keep (h : Owns owner free hold) (hslot : x.slot = (hold u).slot) :
    Owns owner free (Function.update hold u x) := by
  refine { h with hold := fun v j => ?_ }
  rw [← h.hold v j]
  rcases eq_or_ne v u with rfl | hne
  · rw [Function.update_self, hslot]
  · rw [Function.update_of_ne hne]

theorem Owns.take {rest : List Nat} (h : Owns owner (i :: rest) hold) (hu : (hold u).slot = none)
    (hx : x.slot = some i) :
    Owns (Function.update owner i (.user u)) rest (Function.update hold u x) := by
  have hi : rest.count i = 0 ∧ owner i = .free := by
    rcases h.free i with hi | ⟨hi, -⟩
    · rw [List.count_cons_self] at hi
      exact ⟨by omega, hi.2⟩
    · simp at hi
  refine h.update (fun j hne => (List.count_cons_of_ne hne.symm).symm) (.inr ⟨hi.1, by simp⟩)
    (fun v j hne => ?_) fun v => ?_
  · rcases eq_or_ne v u with rfl | hv
    · simp [Function.update_self, hx, hu, hne.symm]
    · rw [Function.update_of_ne hv]
  · rcases eq_or_ne v u with rfl | hv
    · simp [Function.update_self, hx]
    · rw [Function.update_of_ne hv, h.hold v i, hi.2]
      simp [hv.symm]

theorem Owns.lose {free' : List Nat} (h : Owns owner free hold) (hu : (hold u).slot = some i)
    (hfree : ∀ j ≠ i, free'.count j = free.count j)
    (hfree_i : free'.count i = 1 ∧ o = .free ∨ free'.count i = 0 ∧ o ≠ .free)
    (ho : ∀ v, o ≠ .user v) :
    Owns (Function.update owner i o) free' (Function.update hold u .none) := by
  have hi := (h.hold u i).mp hu
  refine h.update hfree hfree_i (fun v j hne => ?_) fun v => ?_
  · rcases eq_or_ne v u with rfl | hv
    · simp [Function.update_self, hu, hne.symm]
    · rw [Function.update_of_ne hv]
  · rcases eq_or_ne v u with rfl | hv
    · simp [Function.update_self, ho]
    · rw [Function.update_of_ne hv, h.hold v i, hi]
      simp [hv.symm, ho]

theorem Owns.put (h : Owns owner free hold) (hu : (hold u).slot = some i) :
    Owns (Function.update owner i .free) (i :: free) (Function.update hold u .none) := by
  have hcount := h.not_free (i := i) (by simp [(h.hold u i).mp hu])
  exact h.lose hu (fun j hne => List.count_cons_of_ne hne.symm)
    (.inl ⟨by rw [List.count_cons_self, hcount], rfl⟩) (by simp)

theorem Owns.hand_over (h : Owns owner free hold) (hu : (hold u).slot = some i) :
    Owns (Function.update owner i (.op k)) free (Function.update hold u .none) := by
  have hcount := h.not_free (i := i) (by simp [(h.hold u i).mp hu])
  exact h.lose hu (fun _ _ => rfl) (.inr ⟨hcount, by simp⟩) (by simp)

section

variable (hinv : Inv owner s)

include hinv

/-- A user works on the slot it holds: it clears flags or looks at them. -/
theorem Inv.work {completed dropped : Nat → Bool} (hslot : (s.hold u).slot = some i)
    (hslot' : x'.slot = some i) (hop : x'.op = (s.hold u).op)
    (hcompleted : ∀ j ≠ i, completed j = s.completed j)
    (hdropped : ∀ j ≠ i, dropped j = s.dropped j)
    (hlower : dropped i = s.dropped i ∨ dropped i = false)
    (hpending : ∀ k, s.Pending k i → x' = .working i k ∨ x' = .leaving i k)
    (hok : { s.set u x' with completed, dropped }.HoldOk u x') :
    Inv owner { s.set u x' with completed, dropped } := by
  have howner := (hinv.owns.hold u i).mp hslot
  have hother {v : υ} (hne : v ≠ u) {j : Nat} (hv : (s.hold v).slot = some j) : j ≠ i := by
    rintro rfl
    exact hne (hinv.slot_unique hv hslot)
  refine { hinv with
    owns := hinv.owns.keep (hslot'.trans hslot.symm)
    opOk := fun k j hj => ?_
    holdOk := (Function.forall_update_iff s.hold (St.HoldOk _)).mpr ⟨hok, fun v hne => ?_⟩
    pending := fun k j hk => ?_
    looking := fun k j hjob => ?_
    once := fun k hk hheld => hinv.once k hk (St.op_ne_of_set hheld ?_) }
  · have hne : j ≠ i := by
      rintro rfl
      cases howner.symm.trans hj
    have hj' := hinv.opOk k j hj
    rwa [← hdropped j hne] at hj'
  · exact (hinv.holdOk v).congr
      (fun j hj => ⟨hcompleted j (hother hne hj), hdropped j (hother hne hj)⟩)
      fun _ _ _ _ => ⟨Iff.rfl, fun hlive => { hlive with }⟩
  · rcases eq_or_ne j i with rfl | hne
    · exact .inr ⟨u, by simpa only [St.set_hold_self] using hpending k hk⟩
    · refine (hinv.pending k j hk).imp_right fun ⟨v, hv⟩ => St.held_set hv fun hu => ?_
      exact hne (Option.some.inj ((Hold.slot_of_op hu).symm.trans hslot))
  · refine (hinv.looking k j hjob).imp_right fun ⟨hk, hd⟩ => ⟨hk, ?_⟩
    rcases eq_or_ne j i with rfl | hne
    · exact hlower.elim (fun h => h.trans hd) id
    · exact (hdropped j hne).trans hd
  · have hu := hheld u
    rwa [St.set_hold_self, hop] at hu

theorem Inv.clearCompleted (hu : s.hold u = .taken i) :
    Inv owner { s.set u (.half i) with completed := Function.update s.completed i false } :=
  hinv.work (hu ▸ rfl) rfl (hu ▸ rfl) (fun j hne => Function.update_of_ne hne _ _)
    (fun _ _ => rfl) (.inl rfl)
    (fun k hk => by simpa using hinv.pending_of_hold hu rfl hk)
    (Function.update_self i _ _)

theorem Inv.clearDropped (hu : s.hold u = .half i) :
    Inv owner { s.set u (.clean i) with dropped := Function.update s.dropped i false } := by
  have hok : s.HoldOk u (.half i) := hu ▸ hinv.holdOk u
  exact hinv.work (hu ▸ rfl) rfl (hu ▸ rfl) (fun _ _ => rfl)
    (fun j hne => Function.update_of_ne hne _ _) (.inr (Function.update_self i _ _))
    (fun k hk => by simpa using hinv.pending_of_hold hu rfl hk)
    ⟨hok, Function.update_self i _ _⟩

theorem Inv.see (hu : s.hold u = .working i k) (hc : s.completed i = true) :
    Inv owner (s.set u (.seen i k)) := by
  obtain ⟨hd, hpending, hlive⟩ : s.HoldOk u (.working i k) := hu ▸ hinv.holdOk u
  have hnot : ¬ s.Pending k i := fun h => by
    rw [hpending.mpr h] at hc
    cases hc
  exact hinv.work (hu ▸ rfl) rfl (hu ▸ rfl) (fun _ _ => rfl) (fun _ _ => rfl) (.inl rfl)
    (fun k' hk => by
      obtain rfl : k = k' := by simpa using hinv.pending_of_hold hu rfl hk
      exact absurd hk hnot)
    ⟨hd, hnot, { hlive with }⟩

theorem Inv.leave (hu : s.hold u = .working i k) (hc : s.completed i = false) :
    Inv owner (s.set u (.leaving i k)) := by
  obtain ⟨hd, hpending, hlive⟩ : s.HoldOk u (.working i k) := hu ▸ hinv.holdOk u
  exact hinv.work (hu ▸ rfl) rfl (hu ▸ rfl) (fun _ _ => rfl) (fun _ _ => rfl) (.inl rfl)
    (fun k' hk => by simpa using hinv.pending_of_hold hu rfl hk)
    ⟨hd, hpending.mp hc, { hlive with }⟩

theorem Inv.take {rest : List Nat} (hu : s.hold u = .none) (hfree : s.free = i :: rest) :
    Inv (Function.update owner i (.user u)) { s.set u (.taken i) with free := rest } := by
  have hi : owner i = .free := by
    rcases hinv.owns.free i with ⟨-, hi⟩ | ⟨hi, -⟩
    · exact hi
    · simp [hfree] at hi
  have hop {k j : Nat} : Function.update owner i (.user u) j = .op k ↔ owner j = .op k :=
    Owner.update_op_iff (by simp) (by simp [hi])
  refine { hinv with
    owns := Owns.take (hfree ▸ hinv.owns) (by rw [hu]; rfl) rfl
    op := fun k j => (hinv.op k j).trans hop.symm
    opOk := fun k j hj => hinv.opOk k j (hop.mp hj)
    holdOk := (Function.forall_update_iff s.hold (St.HoldOk _)).mpr ⟨trivial, fun v _ => ?_⟩
    pending := fun k j hk => (hinv.pending k j hk).imp hop.mpr fun ⟨v, hv⟩ =>
      St.held_set hv (by simp [hu])
    looking := fun k j hjob => (hinv.looking k j hjob).imp_left hop.mpr
    freeing := fun k j hjob => hop.mpr (hinv.freeing k j hjob)
    once := fun k hk hheld howner => hinv.once k hk
      (St.op_ne_of_set hheld (by simp [hu, Hold.op])) fun j hj => howner j (hop.mpr hj) }
  exact (hinv.holdOk v).congr (fun _ _ => ⟨rfl, rfl⟩) fun _ _ _ _ =>
    ⟨Iff.rfl, fun hlive => { hlive with }⟩

theorem Inv.submit (hu : s.hold u = .clean i) :
    Inv owner { s.set u (.working i s.issued) with
      inFlight := Function.update s.inFlight s.issued (some i)
      issued := s.issued + 1
      submitter := Function.update s.submitter s.issued (some u) } := by
  obtain ⟨hcompleted, hdropped⟩ : s.HoldOk u (.clean i) := hu ▸ hinv.holdOk u
  obtain ⟨habandoned, hprocessed, hreleased⟩ := hinv.fresh s.issued le_rfl
  have hflight {k : Nat} (hne : k ≠ s.issued) :
      Function.update s.inFlight s.issued (some i) k = s.inFlight k := Function.update_of_ne hne _ _
  have hsame {k j : Nat} (hne : k ≠ s.issued) :
      Function.update s.inFlight s.issued (some i) k = some j ↔ s.inFlight k = some j := by
    rw [hflight hne]
  refine { hinv with
    owns := hinv.owns.keep (by rw [hu]; rfl)
    op := fun k j => ?_
    opOk := fun k j hj =>
      (hinv.opOk k j hj).imp_right fun h => ⟨h.1.trans (Nat.lt_succ_self _), h.2⟩
    holdOk := (Function.forall_update_iff s.hold (St.HoldOk _)).mpr ⟨?_, fun v _ => ?_⟩
    pending := fun k j hk => ?_
    begun := fun k j hjob => ?_
    lt := fun k j hk => ?_
    processed := fun k hk j hj => ?_
    once := fun k hk hheld howner => ?_
    fresh := fun k hk => hinv.fresh k (Nat.le_of_succ_le hk) }
  · rw [← hinv.op k j]
    exact and_congr_right fun hk => or_congr_left (hsame (ne_of_mem_of_not_mem hk habandoned))
  · refine ⟨hdropped, ⟨fun _ => .inl (Function.update_self _ _ _), fun _ => hcompleted⟩, ?_⟩
    exact ⟨Nat.lt_succ_self _, Function.update_self _ _ _, habandoned, hreleased⟩
  · refine (hinv.holdOk v).congr (fun _ _ => ⟨rfl, rfl⟩) fun j k _ hop => ?_
    have hk : k ≠ s.issued := (hinv.live hop).lt.ne
    refine ⟨or_congr_left (hsame hk), fun hlive => { hlive with lt := ?_, submitter := ?_ }⟩
    · exact hlive.lt.trans (Nat.lt_succ_self _)
    · exact (Function.update_of_ne hk _ _).trans hlive.submitter
  · rcases eq_or_ne k s.issued with rfl | hne
    · refine .inr ⟨u, .inl ?_⟩
      rcases hk with hk | hk
      · have hj : some i = some j :=
          (Function.update_self s.issued (some i) s.inFlight).symm.trans hk
        simp only [St.set_hold_self, Option.some.inj hj]
      · exact absurd (hinv.lt _ j (.inr (by rw [show s.job = _ from hk]; rfl))) (lt_irrefl _)
    · have hk' : s.Pending k j := hk.imp_left (hsame hne).mp
      exact (hinv.pending k j hk').imp_right fun ⟨v, hv⟩ => St.held_set hv (by simp [hu])
  · have hne : k ≠ s.issued := (hinv.lt k j (.inr hjob)).ne
    exact (hflight hne).trans (hinv.begun k j hjob)
  · rcases eq_or_ne k s.issued with rfl | hne
    · exact Nat.lt_succ_self _
    · exact (hinv.lt k j (hk.imp_left (hsame hne).mp)).trans (Nat.lt_succ_self _)
  · exact hinv.processed k hk j (hj.imp_left (hsame (ne_of_mem_of_not_mem hk hprocessed)).mp)
  · have hne : k ≠ s.issued := by
      rintro rfl
      exact hheld u (by simp only [St.set_hold_self]; rfl)
    exact hinv.once k (lt_of_le_of_ne (Nat.le_of_lt_succ hk) hne)
      (St.op_ne_of_set hheld (by simp [hu, Hold.op])) howner

theorem Inv.put (hu : s.hold u = x) (hslot : x.slot = some i) (hworking : ∀ j k, x ≠ .working j k)
    (hleaving : ∀ j k, x ≠ .leaving j k) :
    Inv (Function.update owner i .free)
      { s.set u .none with free := i :: s.free, released := x.op.toList ++ s.released } := by
  subst hu
  have howner := (hinv.owns.hold u i).mp hslot
  have hop {k j : Nat} : Function.update owner i .free j = .op k ↔ owner j = .op k :=
    Owner.update_op_iff (by simp) (by simp [howner])
  have hmem {k : Nat} (hk : k ∈ (s.hold u).op.toList) : s.Live u k :=
    hinv.live (Option.mem_toList.mp hk)
  refine { hinv with
    owns := hinv.owns.put hslot
    op := fun k j => (hinv.op k j).trans hop.symm
    opOk := fun k j hj => ?_
    holdOk := (Function.forall_update_iff s.hold (St.HoldOk _)).mpr ⟨trivial, fun v hne => ?_⟩
    pending := fun k j hk => (hinv.pending k j hk).imp hop.mpr fun ⟨v, hv⟩ =>
      St.held_set hv (not_or.mpr ⟨hworking j k, hleaving j k⟩)
    looking := fun k j hjob => (hinv.looking k j hjob).imp_left hop.mpr
    freeing := fun k j hjob => hop.mpr (hinv.freeing k j hjob)
    once := fun k hk hheld hnot => ?_
    fresh := fun k hk => ?_ }
  · obtain ⟨hdropped, hlt, hreleased⟩ := hinv.opOk k j (hop.mp hj)
    have habandoned := ((hinv.op k j).mpr (hop.mp hj)).1
    exact ⟨hdropped, hlt, fun hk => (List.mem_append.mp hk).elim
      (fun hk => (hmem hk).abandoned habandoned) hreleased⟩
  · refine (hinv.holdOk v).congr (fun _ _ => ⟨rfl, rfl⟩) fun j k _ _ =>
      ⟨Iff.rfl, fun hlive => { hlive with released := fun hk => ?_ }⟩
    rcases List.mem_append.mp hk with hk | hk
    · exact hne (Option.some.inj (hlive.submitter.symm.trans (hmem hk).submitter))
    · exact hlive.released hk
  · rw [List.count_append]
    by_cases hu : (s.hold u).op = some k
    · have hzero : s.released.count k = 0 := List.count_eq_zero.mpr (hinv.live hu).released
      rw [hu, hzero]
      simp
    · have hzero : (s.hold u).op.toList.count k = 0 := List.count_eq_zero.mpr fun hk =>
        hu (Option.mem_toList.mp hk)
      rw [hzero, Nat.zero_add]
      exact hinv.once k hk (St.op_ne_of_set hheld hu) fun j hj => hnot j (hop.mpr hj)
  · obtain ⟨habandoned, hprocessed, hreleased⟩ := hinv.fresh k hk
    refine ⟨habandoned, hprocessed, fun hmem' => ?_⟩
    rcases List.mem_append.mp hmem' with hmem' | hmem'
    · exact absurd (hmem hmem').lt (Nat.not_lt.mpr hk)
    · exact hreleased hmem'

/-- A user marks its slot and leaves it to the operation, which is still pending. -/
theorem Inv.abandon (hu : s.hold u = .leaving i k) (hlook : ∀ k', s.job ≠ .looking k' i) :
    Inv (Function.update owner i (.op k))
      { s.set u .none with
        dropped := Function.update s.dropped i true
        abandoned := k :: s.abandoned } := by
  obtain ⟨hdropped, hpending, hlive⟩ : s.HoldOk u (.leaving i k) := hu ▸ hinv.holdOk u
  have hslot : (s.hold u).slot = some i := by rw [hu]; rfl
  have howner := (hinv.owns.hold u i).mp hslot
  have hne_of_op {k' j : Nat} (hj : owner j = .op k') : j ≠ i := by
    rintro rfl
    cases howner.symm.trans hj
  refine { hinv with
    owns := hinv.owns.hand_over hslot
    op := fun k' j => ?_
    opOk := fun k' j hj => ?_
    holdOk := (Function.forall_update_iff s.hold (St.HoldOk _)).mpr ⟨trivial, fun v hne => ?_⟩
    pending := fun k' j hk => ?_
    looking := fun k' j hjob => ?_
    freeing := fun k' j hjob => ?_
    once := fun k' hk hheld hnot => ?_
    fresh := fun k' hk => ?_ }
  · rcases eq_or_ne j i with rfl | hne
    · rw [Function.update_self, Owner.op.injEq]
      constructor
      · rintro ⟨hmem, hun⟩
        rcases List.mem_cons.mp hmem with rfl | hmem
        · rfl
        · cases howner.symm.trans ((hinv.op k' j).mp ⟨hmem, hun⟩)
      · rintro rfl
        exact ⟨List.mem_cons_self, hpending.unprocessed⟩
    · rw [Function.update_of_ne hne, ← hinv.op k' j]
      refine and_congr_left fun hun => ?_
      rw [List.mem_cons, or_iff_right]
      rintro rfl
      exact hne (hinv.unprocessed_unique hun hpending.unprocessed)
  · rcases eq_or_ne j i with rfl | hne
    · obtain rfl := Owner.op.inj ((Function.update_self j _ owner).symm.trans hj)
      exact ⟨Function.update_self j _ _, hlive.lt, hlive.released⟩
    · have hj' := hinv.opOk k' j ((Function.update_of_ne hne _ _).symm.trans hj)
      exact ⟨(Function.update_of_ne hne _ _).trans hj'.1, hj'.2⟩
  · refine (hinv.holdOk v).congr (fun j hj => ⟨rfl, Function.update_of_ne ?_ _ _⟩)
      fun j k' _ _ => ⟨Iff.rfl, fun hlive' => { hlive' with abandoned := ?_ }⟩
    · rintro rfl
      exact hne (hinv.slot_unique hj hslot)
    · refine List.not_mem_cons_of_ne_of_not_mem ?_ hlive'.abandoned
      rintro rfl
      exact hne (Option.some.inj (hlive'.submitter.symm.trans hlive.submitter))
  · rcases eq_or_ne j i with rfl | hne
    · obtain rfl : k = k' := by simpa using hinv.pending_of_hold hu rfl hk
      exact .inl (Function.update_self j _ _)
    · refine (hinv.pending k' j hk).imp (Function.update_of_ne hne _ _).trans fun ⟨v, hv⟩ =>
        St.held_set hv fun hu => ?_
      exact hne (Option.some.inj ((Hold.slot_of_op hu).symm.trans hslot))
  · have hne : j ≠ i := by
      rintro rfl
      exact hlook k' hjob
    refine (hinv.looking k' j hjob).imp (Function.update_of_ne hne _ _).trans fun ⟨hk, hd⟩ =>
      ⟨?_, (Function.update_of_ne hne _ _).trans hd⟩
    refine List.not_mem_cons_of_ne_of_not_mem ?_ hk
    rintro rfl
    have hun : s.Unprocessed k' j := .inr (by rw [show s.job = _ from hjob]; rfl)
    exact hne (hinv.unprocessed_unique hun hpending.unprocessed)
  · have hj := hinv.freeing k' j hjob
    exact (Function.update_of_ne (hne_of_op hj) _ _).trans hj
  · refine hinv.once k' hk (St.op_ne_of_set hheld ?_) fun j hj => ?_
    · rw [hu]
      intro hop
      exact hnot i ((Function.update_self i _ _).trans (congrArg Owner.op (Option.some.inj hop)))
    · exact hnot j ((Function.update_of_ne (hne_of_op hj) _ _).trans hj)
  · obtain ⟨habandoned, hrest⟩ := hinv.fresh k' hk
    refine ⟨List.not_mem_cons_of_ne_of_not_mem ?_ habandoned, hrest⟩
    rintro rfl
    exact absurd hlive.lt (Nat.not_lt.mpr hk)

/-! ## Results -/

/-- Every step keeps the invariant, and no slot is lost. -/
theorem Inv.step (hst : Step s s') :
    ∃ owner', Inv owner' s' ∧ ∀ j, owner j ≠ .outside → owner' j ≠ .outside := by
  cases hst with
  | stay => exact ⟨_, hinv, fun _ => id⟩
  | take hu hfree => exact ⟨_, hinv.take hu hfree, fun _ => Owner.update_ne_outside (by simp)⟩
  | clearCompleted hu => exact ⟨_, hinv.clearCompleted hu, fun _ => id⟩
  | clearDropped hu => exact ⟨_, hinv.clearDropped hu, fun _ => id⟩
  | submit hu => exact ⟨_, hinv.submit hu, fun _ => id⟩
  | giveBack hu | finish hu =>
    exact ⟨_, hinv.put hu rfl (by simp) (by simp), fun _ => Owner.update_ne_outside (by simp)⟩
  | see hu hc => exact ⟨_, hinv.see hu hc, fun _ => id⟩
  | leave hu hc => exact ⟨_, hinv.leave hu hc, fun _ => id⟩
  | abandon hu hlook =>
    exact ⟨_, hinv.abandon hu hlook, fun _ => Owner.update_ne_outside (by simp)⟩
  | start hjob hk => exact ⟨_, hinv.start hjob hk, fun _ => id⟩
  | publish hjob hleave => exact ⟨_, hinv.publish hjob hleave, fun _ => id⟩
  | keep hjob hd => exact ⟨_, hinv.keep hjob hd, fun _ => id⟩
  | claim hjob hd => exact ⟨_, hinv.claim hjob hd, fun _ => id⟩
  | release hjob => exact ⟨_, hinv.release hjob, fun _ => Owner.update_ne_outside (by simp)⟩

/-- A slot that is left to an operation stays with it until the worker frees it. -/
theorem Inv.orphan_step (hst : Step s s') (horphan : s.Orphan k i) :
    s'.Orphan k i ∨ s.job = .freeing k i ∧ s'.job = .idle := by
  obtain ⟨hk, hun⟩ := horphan
  have hdropped := (hinv.opOk k i ((hinv.op k i).mp ⟨hk, hun⟩)).1
  cases hst with
  | stay | take | clearCompleted | clearDropped | giveBack | see | finish | leave =>
    exact .inl ⟨hk, hun⟩
  | submit =>
    have hne : k ≠ s.issued := Nat.ne_of_lt (hinv.lt k i hun)
    exact .inl ⟨hk, hun.imp_left fun h => (Function.update_of_ne hne _ _).trans h⟩
  | abandon => exact .inl ⟨List.mem_cons_of_mem _ hk, hun⟩
  | @start j k' hjob hflight =>
    refine .inl ⟨hk, ?_⟩
    rcases hun with h | h
    · rcases eq_or_ne k k' with rfl | hne
      · obtain rfl := Option.some.inj (h.symm.trans hflight)
        exact .inr rfl
      · exact .inl ((Function.update_of_ne hne _ _).trans h)
    · rw [hjob] at h
      cases h
  | publish hjob | claim hjob => exact .inl ⟨hk, hun.imp_right fun h => by rw [hjob] at h; exact h⟩
  | keep hjob hd =>
    refine .inl ⟨hk, hun.imp_right fun h => ?_⟩
    rw [hjob] at h
    obtain ⟨rfl, rfl⟩ := Prod.mk.inj (Option.some.inj h)
    cases hd.symm.trans hdropped
  | @release j k' hjob =>
    rcases hun with h | h
    · exact .inl ⟨hk, .inl h⟩
    · rw [hjob] at h
      obtain ⟨rfl, rfl⟩ := Prod.mk.inj (Option.some.inj h)
      exact .inr ⟨hjob, rfl⟩

end

end

section

variable {owner : Nat → Owner υ} {s : St υ} {u : υ} {i k : Nat}

theorem inv_init (hfree : s.free.Nodup) (hflight : ∀ k, s.inFlight k = none)
    (hissued : s.issued = 0) (hhold : ∀ u, s.hold u = .none) (hjob : s.job = .idle)
    (hlists : s.abandoned = [] ∧ s.processed = [] ∧ s.released = []) :
    Inv (fun i => if i ∈ s.free then .free else .outside) s := by
  obtain ⟨habandoned, hprocessed, hreleased⟩ := hlists
  have hop (k i : Nat) : (if i ∈ s.free then Owner.free else .outside : Owner υ) ≠ .op k := by
    split <;> simp
  have hpending (k i : Nat) : ¬ s.Pending k i := by simp [St.Pending, hflight, hjob]
  have hunprocessed (k i : Nat) : ¬ s.Unprocessed k i := by
    simp [St.Unprocessed, Job.handles, hflight, hjob]
  refine {
    owns := ⟨fun i => ?_, fun u i => ?_⟩
    op := fun k i => iff_of_false (fun h => hunprocessed k i h.2) (hop k i)
    opOk := fun k i hi => absurd hi (hop k i)
    holdOk := fun u => by rw [hhold u]; trivial
    pending := fun k i h => absurd h (hpending k i)
    begun := fun k _ _ => hflight k
    looking := fun k i h => by cases hjob.symm.trans h
    freeing := fun k i h => by cases hjob.symm.trans h
    lt := fun k i h => absurd h (hunprocessed k i)
    processed := fun k hk => by simp [hprocessed] at hk
    once := fun k hk => by omega
    fresh := fun k _ => by simp [habandoned, hprocessed, hreleased] }
  · by_cases hi : i ∈ s.free
    · exact .inl ⟨List.count_eq_one_of_mem hfree hi, if_pos hi⟩
    · exact .inr ⟨List.count_eq_zero.mpr hi, by simp [hi]⟩
  · rw [hhold u]
    split <;> simp

section

variable (hinv : Inv owner s)

include hinv

theorem Inv.owner_of_free (hi : i ∈ s.free) : owner i = .free := by
  rcases hinv.owns.free i with ⟨-, howner⟩ | ⟨hcount, -⟩
  · exact howner
  · exact absurd hi (List.count_eq_zero.mp hcount)

theorem Inv.not_held_of_free (hi : i ∈ s.free) : (s.hold u).slot ≠ some i := by
  rw [ne_eq, hinv.owns.hold, hinv.owner_of_free hi]
  simp

theorem Inv.not_orphan_of_free (hi : i ∈ s.free) : ¬ s.Orphan k i := by
  rw [hinv.op, hinv.owner_of_free hi]
  simp

theorem Inv.not_orphan_of_hold (hi : (s.hold u).slot = some i) : ¬ s.Orphan k i := by
  rw [hinv.op, (hinv.owns.hold u i).mp hi]
  simp

/-- A slot is free, once, or held by one user, or left to one operation. -/
theorem Inv.one_owner (hi : owner i ≠ .outside) :
    (s.free.count i = 1 ∧ (∀ u, (s.hold u).slot ≠ some i) ∧ ∀ k, ¬ s.Orphan k i) ∨
      (s.free.count i = 0 ∧ (∃! u, (s.hold u).slot = some i) ∧ ∀ k, ¬ s.Orphan k i) ∨
      (s.free.count i = 0 ∧ (∀ u, (s.hold u).slot ≠ some i) ∧ ∃! k, s.Orphan k i) := by
  simp only [ne_eq, hinv.owns.hold, hinv.op]
  cases ho : owner i with
  | outside => exact absurd ho hi
  | free =>
    refine .inl ⟨?_, by simp, by simp⟩
    rcases hinv.owns.free i with ⟨hcount, -⟩ | ⟨-, hne⟩
    · exact hcount
    · exact absurd ho hne
  | user u =>
    exact .inr (.inl ⟨hinv.owns.not_free (by simp [ho]), ⟨u, rfl, by simp [eq_comm]⟩, by simp⟩)
  | op k =>
    exact .inr (.inr ⟨hinv.owns.not_free (by simp [ho]), by simp, ⟨k, rfl, by simp [eq_comm]⟩⟩)

/-- An operation that is processed and that its user no longer holds has freed its slot once. -/
theorem Inv.released_once (hk : k ∈ s.processed) (hu : s.submitter k = some u)
    (hhold : (s.hold u).op ≠ some k) : s.released.count k = 1 := by
  have hlt : k < s.issued := by
    by_contra hge
    exact (hinv.fresh k (Nat.not_lt.mp hge)).2.1 hk
  refine hinv.once k hlt (fun v hv => ?_) fun i hi => ?_
  · have hvu := Option.some.inj ((hinv.live hv).submitter.symm.trans hu)
    exact hhold (hvu ▸ hv)
  · exact hinv.processed k hk i ((hinv.op k i).mpr hi).2

end

end

end Handover
