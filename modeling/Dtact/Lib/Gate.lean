import Dtact.Lib.Bags

/-!
# Gates

A task that waits for a permit registers, checks that none is free and sleeps until it is woken,
which begins its next round. Who gives a permit back spends one wake on a registration, in a second
step. A registration stays until a wake is spent on it or it is retracted, also when its task is
gone; that wake is lost for the others.

Results:
1. `Inv.step`: while some task sleeps there are no more free permits than wakes on their way, as
   long as no wake is lost that could not be spared.
2. `Inv.someone_awake`: so when nothing is in progress and a permit is free, a waiting task is
   awake.
-/

namespace Gate

inductive Phase
  | away
  /-- In a round, with the last check ahead. -/
  | asking (registered : Bool)
  /-- In a round, with the permit. -/
  | leaving
  | waiting
deriving DecidableEq

def Phase.credit (woken : Bool) : Phase → Nat
  | .asking _ => 1
  | .waiting => woken.toNat
  | .away | .leaving => 0

theorem Phase.credit_le (woken : Bool) (p : Phase) : p.credit woken ≤ 1 := by
  cases p with
  | waiting => exact woken.toNat_le
  | _ => simp [credit]

theorem Phase.credit_mono (woken : Bool) (p : Phase) : p.credit woken ≤ p.credit true := by
  cases p with
  | waiting => exact woken.toNat_le
  | _ => exact Nat.le_refl _

structure Task where
  phase : Phase
  /-- It has been woken since its latest round began. -/
  woken : Bool
  /-- It has given a permit back and is about to wake a task. -/
  waking : Bool
  /-- It is about to wake all tasks. -/
  wakingAll : Bool
deriving DecidableEq

namespace Task

def sleeps (t : Task) : Bool := t.phase = .waiting && !t.woken

/-- The task counts on its registration. -/
def relies (t : Task) : Bool := (t.phase = .waiting || t.phase = .asking true) && !t.woken

/-- The permits the task will see to. -/
def credit (t : Task) : Nat := t.waking.toNat + t.phase.credit t.woken

def inProgress (t : Task) : Bool :=
  t.waking || t.wakingAll || (t.phase != .away && t.phase != .waiting)

theorem sleeps_relies {t : Task} (h : t.sleeps) : t.relies := by
  simp only [sleeps, relies, Bool.and_eq_true, Bool.or_eq_true] at h ⊢
  exact ⟨.inl h.1, h.2⟩

end Task

structure St (ι : Type) where
  free : Nat
  /-- The tasks of the registrations that can be woken. -/
  owners : Multiset ι
  task : ι → Task
  /-- No permits are handed out any more. -/
  closed : Bool

variable {ι : Type} [DecidableEq ι]

namespace St

def modify (s : St ι) (j : ι) (f : Task → Task) : St ι :=
  { s with task := Function.update s.task j (f (s.task j)) }

def setPhase (s : St ι) (j : ι) (phase : Phase) : St ι := s.modify j fun t => { t with phase }

/-- Wake all tasks that are registered. -/
def wakeOwners (s : St ι) : St ι :=
  { s with
    owners := 0
    task := fun j => if j ∈ s.owners then { s.task j with woken := true } else s.task j }

def someoneSleeps (s : St ι) : Prop := ∃ j, (s.task j).sleeps

def credits [Fintype ι] (s : St ι) : Nat := ∑ j, (s.task j).credit

end St

/-! ## Steps -/

/-- The steps that may lose a wake. -/
inductive Label (ι : Type)
  | plain
  /-- A wake is spent on a registration of this task. -/
  | wake (j : ι)
  /-- The request of this task is dropped. -/
  | drop (j : ι)

inductive Step (s : St ι) : Label ι → St ι → Prop
  | stay : Step s .plain s
  | begin (j : ι) : (s.task j).phase = .away ∨ (s.task j).phase = .waiting →
      Step s .plain (s.modify j fun t => { t with phase := .asking false, woken := false })
  | register (j : ι) : (s.task j).phase = .asking false →
      Step s .plain { s.setPhase j (.asking true) with owners := j ::ₘ s.owners }
  | take (j : ι) {b : Bool} {phase : Phase} : (s.task j).phase = .asking b →
      phase = .leaving ∨ phase = .away → 0 < s.free →
      Step s .plain { s.setPhase j phase with free := s.free - 1 }
  /-- A permit is taken without a request. -/
  | takeAside : 0 < s.free → Step s .plain { s with free := s.free - 1 }
  | sleep (j : ι) : (s.task j).phase = .asking true → s.free = 0 →
      Step s .plain (s.setPhase j .waiting)
  /-- Registrations of the task may be retracted. -/
  | leave (j : ι) {phase : Phase} {owners : Multiset ι} : (s.task j).phase = .leaving →
      phase = .leaving ∨ phase = .away → (∀ i ≠ j, i ∈ s.owners → i ∈ owners) →
      Step s .plain { s.setPhase j phase with owners }
  | giveUp (j : ι) {b : Bool} {phase : Phase} : s.closed → (s.task j).phase = .asking b →
      phase = .leaving ∨ phase = .away → Step s .plain (s.setPhase j phase)
  | release (k : ι) {free : Nat} : (s.task k).waking = false → free ≤ s.free + 1 →
      Step s .plain { s.modify k fun t => { t with waking := true } with free }
  | wake (k j : ι) : (s.task k).waking → j ∈ s.owners →
      Step s (.wake j)
        { (s.modify k fun t => { t with waking := false }).modify j
            fun t => { t with woken := true } with
          owners := s.owners.erase j }
  | noWake (k : ι) : (s.task k).waking → s.owners = 0 →
      Step s .plain (s.modify k fun t => { t with waking := false })
  | add (k : ι) {free : Nat} :
      Step s .plain { s.modify k fun t => { t with wakingAll := true } with free }
  | wakeAll (k : ι) :
      Step s .plain (s.modify k fun t => { t with wakingAll := false }).wakeOwners
  | drop (j : ι) : (s.task j).phase = .waiting → Step s (.drop j) (s.setPhase j .away)
  | close : Step s .plain { s with closed := true }

/-- The step loses no wake that is needed: nobody sleeps, or the wake goes to a task that
does, or there are more wakes on their way than free permits. -/
def Spares [Fintype ι] (s : St ι) : Label ι → Prop
  | .plain => True
  | .wake j => s.someoneSleeps → (s.task j).sleeps ∨ s.free < s.credits
  | .drop j => s.someoneSleeps → (s.task j).woken → s.free < s.credits

instance [Fintype ι] (s : St ι) : Decidable s.someoneSleeps :=
  inferInstanceAs (Decidable (∃ j, (s.task j).sleeps))

instance [Fintype ι] (s : St ι) : (l : Label ι) → Decidable (Spares s l)
  | .plain => inferInstanceAs (Decidable True)
  | .wake j =>
    inferInstanceAs (Decidable (s.someoneSleeps → (s.task j).sleeps ∨ s.free < s.credits))
  | .drop j =>
    inferInstanceAs (Decidable (s.someoneSleeps → (s.task j).woken → s.free < s.credits))

/-! ## The invariant -/

structure Inv [Fintype ι] (s : St ι) : Prop where
  /-- A task that counts on its registration has one. -/
  listed : ∀ j, (s.task j).relies → j ∈ s.owners
  /-- While a task sleeps, every free permit is seen to. -/
  covered : s.someoneSleeps → s.closed ∨ (∃ k, (s.task k).wakingAll) ∨ s.free ≤ s.credits

section

variable {s s' : St ι} {j k : ι}

@[simp]
theorem St.modify_self (f : Task → Task) : (s.modify j f).task j = f (s.task j) :=
  Function.update_self ..

theorem St.modify_ne (f : Task → Task) {i : ι} (h : i ≠ j) : (s.modify j f).task i = s.task i :=
  Function.update_of_ne h ..

theorem St.modify_eq_self {f : Task → Task} (h : f (s.task j) = s.task j) : s.modify j f = s := by
  rw [St.modify, h, Function.update_eq_self]

/-- A task that sleeps after the change of one task slept before, if the changed one does
not. -/
theorem St.someoneSleeps_modify {f : Task → Task} (hf : (f (s.task j)).sleeps → (s.task j).sleeps)
    (h : (s.modify j f).someoneSleeps) : s.someoneSleeps := by
  obtain ⟨i, hi⟩ := h
  rcases eq_or_ne i j with rfl | hne
  · rw [St.modify_self] at hi
    exact ⟨i, hf hi⟩
  · rw [St.modify_ne f hne] at hi
    exact ⟨i, hi⟩

theorem St.wakingAll_modify {f : Task → Task} (hf : (f (s.task j)).wakingAll = (s.task j).wakingAll)
    (h : ∃ k, (s.task k).wakingAll) : ∃ k, ((s.modify j f).task k).wakingAll := by
  obtain ⟨k, hk⟩ := h
  refine ⟨k, ?_⟩
  rcases eq_or_ne k j with rfl | hne
  · rwa [St.modify_self, hf]
  · rwa [St.modify_ne f hne]

theorem Task.relies_of_phase {t : Task} (hw : t.phase ≠ .waiting) (ha : t.phase ≠ .asking true) :
    t.relies = false := by
  simp [relies, hw, ha]

theorem Task.sleeps_of_phase {t : Task} (h : t.phase ≠ .waiting) : t.sleeps = false := by
  simp [sleeps, h]

variable [Fintype ι]

theorem St.credits_modify (s : St ι) (j : ι) (f : Task → Task) :
    (s.modify j f).credits + (s.task j).credit = s.credits + (f (s.task j)).credit :=
  Bags.sum_update s.task Task.credit (Finset.mem_univ j) (f (s.task j))

/-- The invariant after the change of one task that gives at least the credit it takes. -/
theorem Inv.modify (h : Inv s) (j : ι) (f : Task → Task) (free : Nat) (owners : Multiset ι)
    (hrelies : (f (s.task j)).relies → j ∈ owners) (howners : ∀ i ≠ j, i ∈ s.owners → i ∈ owners)
    (hsleeps : (f (s.task j)).sleeps → (s.task j).sleeps)
    (hall : (f (s.task j)).wakingAll = (s.task j).wakingAll)
    (hle : s.someoneSleeps → s.free ≤ s.credits →
      free + (s.task j).credit ≤ s.credits + (f (s.task j)).credit) :
    Inv { s.modify j f with free, owners } := by
  refine ⟨fun i hi => ?_, fun hs => ?_⟩
  · rcases eq_or_ne i j with rfl | hne
    · rw [St.modify_self] at hi
      exact hrelies hi
    · rw [St.modify_ne f hne] at hi
      exact howners i hne (h.listed i hi)
  · have hs := St.someoneSleeps_modify hsleeps hs
    rcases h.covered hs with hc | hk | hfree
    · exact .inl hc
    · exact .inr (.inl (St.wakingAll_modify hall hk))
    · have hcredits := s.credits_modify j f
      have hle := hle hs hfree
      have hgoal : free ≤ (s.modify j f).credits := by omega
      exact .inr (.inr hgoal)

/-- The same when the phase of the task changes to one in which it does not wait. -/
theorem Inv.setPhase (h : Inv s) (j : ι) {phase : Phase} (free : Nat) (owners : Multiset ι)
    (hphase : phase ≠ .waiting) (hrelies : phase = .asking true → j ∈ owners)
    (howners : ∀ i ≠ j, i ∈ s.owners → i ∈ owners)
    (hle : s.someoneSleeps → s.free ≤ s.credits →
      free + (s.task j).credit ≤ s.credits + { s.task j with phase }.credit) :
    Inv { s.setPhase j phase with free, owners } := by
  refine h.modify j (fun t => { t with phase }) free owners (fun hr => ?_) howners (fun hs => ?_)
    rfl hle
  · by_cases ha : phase = .asking true
    · exact hrelies ha
    · rw [Task.relies_of_phase hphase ha] at hr
      cases hr
  · rw [Task.sleeps_of_phase hphase] at hs
    cases hs

omit [DecidableEq ι] in
/-- Nobody sleeps when there are no registrations. -/
theorem Inv.nobody_sleeps (h : Inv s) (ho : s.owners = 0) : ¬ s.someoneSleeps := by
  rintro ⟨i, hi⟩
  have hmem := h.listed i (Task.sleeps_relies hi)
  rw [ho] at hmem
  exact Multiset.notMem_zero i hmem

omit [Fintype ι] in
/-- Whether a task waits does not depend on the wakes it owes. -/
theorem St.task_modify_waking (s : St ι) (k i : ι) (b : Bool) :
    ((s.modify k fun t => { t with waking := b }).task i).phase = (s.task i).phase ∧
      ((s.modify k fun t => { t with waking := b }).task i).woken = (s.task i).woken := by
  rcases eq_or_ne i k with rfl | hne
  · rw [St.modify_self]
    exact ⟨rfl, rfl⟩
  · rw [St.modify_ne _ hne]
    exact ⟨rfl, rfl⟩

/-- A wake is spent: the credit goes over to the task that sleeps, or it could be spared. -/
theorem Inv.wake (h : Inv s) (hk : (s.task k).waking)
    (hspares : s.someoneSleeps → (s.task j).sleeps ∨ s.free < s.credits) :
    Inv { (s.modify k fun t => { t with waking := false }).modify j
        fun t => { t with woken := true } with owners := s.owners.erase j } := by
  have hlost := s.credits_modify k fun t => { t with waking := false }
  simp only [Task.credit, hk, Bool.toNat_true, Bool.toNat_false] at hlost
  have htask := fun i => s.task_modify_waking k i false
  have hall : (∃ i, (s.task i).wakingAll) →
      ∃ i, ((s.modify k fun t => { t with waking := false }).task i).wakingAll :=
    St.wakingAll_modify rfl
  have hsame : (s.modify k fun t => { t with waking := false }).free = s.free ∧
      (s.modify k fun t => { t with waking := false }).closed = s.closed := ⟨rfl, rfl⟩
  generalize s.modify k (fun t => { t with waking := false }) = s₁ at hlost htask hall hsame ⊢
  have hspent := s₁.credits_modify j fun t => { t with woken := true }
  simp only [Task.credit, htask] at hspent
  refine ⟨fun i hi => ?_, fun hs => ?_⟩
  · rcases eq_or_ne i j with rfl | hne
    · rw [St.modify_self] at hi
      simp [Task.relies] at hi
    · rw [St.modify_ne _ hne, Task.relies, (htask i).1, (htask i).2] at hi
      exact (Multiset.mem_erase_of_ne hne).mpr (h.listed i hi)
  · have hs : (s₁.modify j fun t => { t with woken := true }).someoneSleeps := hs
    obtain ⟨i, hi⟩ := St.someoneSleeps_modify (by simp [Task.sleeps]) hs
    have hs : s.someoneSleeps := ⟨i, by rwa [Task.sleeps, (htask i).1, (htask i).2] at hi⟩
    rcases h.covered hs with hc | hk | hle
    · exact .inl (hsame.2.trans hc)
    · have hk := St.wakingAll_modify (s := s₁) (j := j)
        (f := fun t => { t with woken := true }) rfl (hall hk)
      exact .inr (.inl hk)
    · refine .inr (.inr ?_)
      show s₁.free ≤ (s₁.modify j fun t => { t with woken := true }).credits
      rw [hsame.1]
      rcases hspares hs with hj | hlt
      · simp only [Task.sleeps, Bool.and_eq_true, decide_eq_true_eq, Bool.not_eq_true'] at hj
        rw [hj.1, hj.2] at hspent
        simp only [Phase.credit, Bool.toNat_false, Bool.toNat_true] at hspent
        omega
      · have hmono := (s.task j).phase.credit_mono (s.task j).woken
        omega

theorem Inv.step {l : Label ι} (h : Inv s) (hst : Step s l s') (hspares : Spares s l) : Inv s' := by
  cases hst with
  | stay => exact h
  | begin j hp =>
    refine h.modify j (fun t => { t with phase := .asking false, woken := false }) s.free s.owners
      (by simp [Task.relies]) (fun _ _ hi => hi) (by simp [Task.sleeps]) rfl fun _ hle => ?_
    have hcredit := (s.task j).phase.credit_le (s.task j).woken
    simp only [Task.credit, Phase.credit] at hcredit ⊢
    omega
  | register j hp =>
    refine h.setPhase j s.free _ nofun (fun _ => Multiset.mem_cons_self _ _)
      (fun i _ hi => Multiset.mem_cons_of_mem hi) fun _ hle => ?_
    simp only [Task.credit, Phase.credit, hp]
    omega
  | take j hp hnext hfree =>
    refine h.setPhase j _ s.owners ?_ ?_ (fun _ _ hi => hi) fun _ hle => ?_
    · rcases hnext with rfl | rfl <;> nofun
    · rcases hnext with rfl | rfl <;> nofun
    · simp only [Task.credit, Phase.credit, hp]
      omega
  | takeAside hfree =>
    refine ⟨h.listed, fun hs => ?_⟩
    rcases h.covered hs with hc | hk | hle
    · exact .inl hc
    · exact .inr (.inl hk)
    · exact .inr (.inr ((Nat.sub_le _ _).trans hle))
  | sleep j hp hfree =>
    refine ⟨fun i hi => ?_, fun _ => .inr (.inr (hfree ▸ Nat.zero_le _))⟩
    rcases eq_or_ne i j with rfl | hne
    · refine h.listed i ?_
      simp only [St.setPhase, St.modify_self, Task.relies, hp] at hi ⊢
      exact hi
    · simp only [St.setPhase, St.modify_ne _ hne] at hi
      exact h.listed i hi
  | leave j hp hnext howners =>
    refine h.setPhase j s.free _ ?_ ?_ howners fun _ hle => ?_
    · rcases hnext with rfl | rfl <;> nofun
    · rcases hnext with rfl | rfl <;> nofun
    · simp only [Task.credit, Phase.credit, hp]
      omega
  | giveUp j hclosed hp hnext =>
    refine ⟨fun i hi => ?_, fun _ => .inl hclosed⟩
    rcases eq_or_ne i j with rfl | hne
    · simp only [St.setPhase, St.modify_self] at hi
      rw [Task.relies_of_phase] at hi
      · cases hi
      · rcases hnext with rfl | rfl <;> nofun
      · rcases hnext with rfl | rfl <;> nofun
    · simp only [St.setPhase, St.modify_ne _ hne] at hi
      exact h.listed i hi
  | release k hk hfree =>
    refine h.modify k (fun t => { t with waking := true }) _ s.owners (h.listed k)
      (fun _ _ hi => hi) id rfl fun _ hle => ?_
    simp only [Task.credit, hk, Bool.toNat_true, Bool.toNat_false]
    omega
  | wake k j hk hj => exact h.wake hk hspares
  | noWake k hk ho =>
    refine ⟨fun i hi => ?_, fun hs => ?_⟩
    · refine h.listed i ?_
      obtain ⟨hp, hw⟩ := s.task_modify_waking k i false
      simpa only [Task.relies, hp, hw] using hi
    · exact absurd (St.someoneSleeps_modify id hs) (h.nobody_sleeps ho)
  | add k =>
    refine ⟨fun i hi => ?_, fun _ => .inr (.inl ⟨k, ?_⟩)⟩
    · rcases eq_or_ne i k with rfl | hne
      · rw [St.modify_self] at hi
        exact h.listed i hi
      · rw [St.modify_ne _ hne] at hi
        exact h.listed i hi
    · rw [St.modify_self]
  | wakeAll k =>
    have hnone (i : ι) :
        ((s.modify k fun t => { t with wakingAll := false }).wakeOwners.task i).relies = false := by
      by_cases hi : i ∈ s.owners
      · have htask : (s.modify k fun t => { t with wakingAll := false }).wakeOwners.task i = _ :=
          if_pos hi
        rw [htask]
        simp [Task.relies]
      · have htask : (s.modify k fun t => { t with wakingAll := false }).wakeOwners.task i = _ :=
          if_neg hi
        rw [htask]
        rcases eq_or_ne i k with rfl | hne
        · rw [St.modify_self]
          exact Bool.eq_false_iff.mpr fun hr => hi (h.listed i hr)
        · rw [St.modify_ne _ hne]
          exact Bool.eq_false_iff.mpr fun hr => hi (h.listed i hr)
    refine ⟨fun i hi => ?_, fun ⟨i, hi⟩ => ?_⟩
    · cases (hnone i).symm.trans hi
    · cases (hnone i).symm.trans (Task.sleeps_relies hi)
  | drop j hp =>
    refine h.setPhase j s.free s.owners nofun nofun (fun _ _ hi => hi) fun hs hle => ?_
    have hspared : (s.task j).woken → s.free < s.credits := hspares hs
    simp only [Task.credit, Phase.credit, hp]
    cases hw : (s.task j).woken with
    | false =>
      simp only [Bool.toNat_false]
      omega
    | true =>
      have hlt := hspared hw
      simp only [Bool.toNat_true]
      omega
  | close => exact ⟨h.listed, fun _ => .inl rfl⟩

/-! ## Nothing in progress -/

omit [DecidableEq ι] in
/-- When nothing is in progress and a permit is free, one of the waiting tasks is awake. -/
theorem Inv.someone_awake (h : Inv s) (hquiet : ∀ j, (s.task j).inProgress = false)
    (hclosed : s.closed = false) (hfree : 0 < s.free) (hwaits : ∃ j, (s.task j).phase = .waiting) :
    ∃ j, (s.task j).phase = .waiting ∧ (s.task j).woken := by
  by_contra hno
  have hasleep (j : ι) (hj : (s.task j).phase = .waiting) : (s.task j).woken = false := by
    by_contra hw
    exact hno ⟨j, hj, by simpa using hw⟩
  have hquiet (j : ι) : (s.task j).waking = false ∧ (s.task j).wakingAll = false ∧
      ((s.task j).phase = .away ∨ (s.task j).phase = .waiting) := by
    have hj := hquiet j
    simp only [Task.inProgress, Bool.or_eq_false_iff, Bool.and_eq_false_iff, bne_eq_false_iff_eq]
      at hj
    exact ⟨hj.1.1, hj.1.2, hj.2⟩
  have hcredits : s.credits = 0 := by
    refine Finset.sum_eq_zero fun j _ => ?_
    obtain ⟨hwaking, -, hphase⟩ := hquiet j
    rcases hphase with hp | hp
    · simp [Task.credit, Phase.credit, hwaking, hp]
    · simp [Task.credit, Phase.credit, hwaking, hp, hasleep j hp]
  obtain ⟨j, hj⟩ := hwaits
  have hsleeps : (s.task j).sleeps := by simp [Task.sleeps, hj, hasleep j hj]
  rcases h.covered ⟨j, hsleeps⟩ with hc | ⟨k, hk⟩ | hle
  · cases hclosed.symm.trans hc
  · cases (hquiet k).2.1.symm.trans hk
  · omega

end

end Gate
