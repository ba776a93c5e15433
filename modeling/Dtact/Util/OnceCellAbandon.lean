import Dtact.Util.OnceCell

/-!
# A `OnceCell` whose initialisation is abandoned

The future that has won the cell may be dropped while its initialiser is pending, and the
initialiser may panic. The byte then stays `INITIALIZING`.
-/

namespace Dtact.OnceCell

open Transition

variable {ι T : Type} [DecidableEq ι]

/-- A step as before, or the future of task `j` that runs the initialiser is lost. -/
inductive LossyAct (ι T : Type)
  | act (a : Act ι T)
  | abandon (j : ι)

/-- The future is dropped between two polls of the initialiser, or a poll of it panics. -/
def abandon (j : ι) (s : St ι T) : Option (St ι T) :=
  match (s.task j).activity with
  | .pendingInit | .call .initPoll => some (s.set j .idle)
  | _ => none

def lossyStep : LossyAct ι T → St ι T → Option (St ι T)
  | .act a, s => step a s
  | .abandon j, s => abandon j s

/-- The history, and whether a future has been lost. -/
def lossyUpd (a : LossyAct ι T) (s : St ι T) (h : Hist T × Bool) : Hist T × Bool :=
  match a with
  | .act a => (upd a s h.1, h.2)
  | .abandon _ => (h.1, true)

abbrev LossyRun : List (LossyAct ι T) → St ι T × Hist T × Bool → Prop :=
  Run (fun p => Created (p.1, p.2.1) ∧ p.2.2 = false) (withHist lossyStep lossyUpd) Free

/-- From here some `set` or `get_or_init` returns with success. -/
def Usable (p : St ι T × Hist T × Bool) : Prop :=
  ∃ as p', exec (withHist lossyStep lossyUpd) as p = some p' ∧
    (p.2.1.returned.length < p'.2.1.returned.length ∨ p.2.1.oks.length < p'.2.1.oks.length)

/-! ## What a step does to the cell -/

section

variable {s s' : St ι T} {h : Hist T} {j : ι}

/-- The cell is kept, won or published. -/
inductive Turns (s s' : St ι T) : Prop
  | keep : s'.state = s.state → (∀ i, (s'.acts i).wins = (s.acts i).wins) → Turns s s'
  | win (i : ι) : s.state = .uninit → s'.state = .initializing → (s'.acts i).wins → Turns s s'
  | done (i : ι) : (s.acts i).wins → s'.state = .init → Turns s s'

theorem Turns.of_acts {a : Activity T} (hstate : s'.state = s.state)
    (hacts : s'.acts = Function.update s.acts j a) (ha : a.wins = (s.acts j).wins) :
    Turns s s' := by
  refine .keep hstate fun i => ?_
  rw [hacts]
  rcases eq_or_ne i j with rfl | hne
  · rw [Function.update_self, ha]
  · rw [Function.update_of_ne hne]

theorem run_turns (hinv : s.Inv h) {outcome : Option T} {pc : Pc T} (hj : s.acts j = .call pc) :
    Turns s (run j outcome s pc) := by
  have hset {a : Activity T} (ha : a.wins = (s.acts j).wins) : Turns s (s.set j a) :=
    .of_acts rfl (acts_set s j a) ha
  have hok := hinv.ok j
  rw [hj] at hset hok
  cases pc with
  | setCas value | loopCas =>
    simp only [run]
    split
    · next huninit =>
      exact .win j huninit rfl (by simp [St.acts, St.goto, St.set, Activity.wins])
    · exact hset rfl
  | publish caller => exact .done j (by rw [hj]; rfl) rfl
  | wakeAll caller => exact .done j (by rw [hj]; rfl) hok.1
  | write caller value | register
  | cancel token => exact .of_acts rfl (acts_set s j _) (by rw [hj]; rfl)
  | getRead => exact hset rfl
  | getLoad | loopLoad | loopRead | initPoll | waitLoad | waitReload _ =>
    simp only [run]
    split <;> exact hset rfl

theorem step_turns (hinv : s.Inv h) {a : Act ι T} (hst : step a s = some s') : Turns s s' := by
  cases a with
  | get j | set j value | getOrInit j =>
    simp only [step, St.begin] at hst
    split at hst
    · next hj =>
      cases hst
      exact .of_acts rfl (acts_update s j _) (by rw [St.acts, hj]; rfl)
    · cases hst
  | poll j =>
    simp only [step] at hst
    split at hst
    · next hj =>
      cases hst
      exact .of_acts rfl (acts_update s j _) (by rw [St.acts, hj]; rfl)
    · next hj =>
      cases hst
      exact .of_acts rfl (acts_update s j _) (by rw [St.acts, hj]; rfl)
    · cases hst
  | dropFuture j =>
    simp only [step] at hst
    split at hst
    · next hj =>
      cases hst
      exact .of_acts rfl (acts_set s j _) (by rw [St.acts, hj]; rfl)
    · cases hst
  | run j outcome =>
    simp only [step] at hst
    split at hst
    · next hj =>
      cases hst
      exact run_turns hinv hj
    · cases hst

/-- Nobody has won the cell, and nobody can win it. -/
def Stuck (s : St ι T) : Prop := s.state = .initializing ∧ ∀ i, (s.acts i).wins = false

theorem Stuck.step (hinv : s.Inv h) (hs : Stuck s) {a : Act ι T} (hst : step a s = some s') :
    Stuck s' := by
  cases step_turns hinv hst with
  | keep hstate hwins => exact ⟨hstate.trans hs.1, fun i => (hwins i).trans (hs.2 i)⟩
  | win i huninit _ _ => cases hs.1.symm.trans huninit
  | done i hwins _ => cases (hs.2 i).symm.trans hwins

omit [DecidableEq ι] in
/-- Nothing is returned from a cell that is stuck. -/
theorem Stuck.upd (hinv : s.Inv h) (hs : Stuck s) (a : Act ι T) :
    (upd a s h).returned = h.returned ∧ (upd a s h).oks = h.oks := by
  cases a with
  | run j outcome =>
    simp only [OnceCell.upd]
    split
    · next pc hj =>
      have hwins := hs.2 j
      have hok := hinv.ok j
      rw [St.acts, hj] at hwins hok
      cases pc with
      | getRead | loopRead => cases hs.1.symm.trans hok
      | write caller value | wakeAll caller => cases hwins
      | setCas value | loopCas =>
        rw [record, if_neg (by simp [hs.1])]
        exact ⟨rfl, rfl⟩
      | _ => exact ⟨rfl, rfl⟩
    · exact ⟨rfl, rfl⟩
  | _ => exact ⟨rfl, rfl⟩

theorem woken_set (s : St ι T) (j : ι) (a : Activity T) (i : ι) :
    ((s.set j a).task i).woken = (s.task i).woken := by
  simp only [St.set]
  rcases eq_or_ne i j with rfl | hne
  · rw [Function.update_self]
  · rw [Function.update_of_ne hne]

/-- Nobody is woken by a cell that is stuck. -/
theorem Stuck.woken (hs : Stuck s) {a : Act ι T} (hst : OnceCell.step a s = some s') {i : ι}
    (hwoken : (s'.task i).woken) : (s.task i).woken := by
  have hclear {k : ι} {act : Activity T} (h : (Function.update s.task k ⟨act, false⟩ i).woken) :
      (s.task i).woken := by
    rcases eq_or_ne i k with rfl | hne
    · rw [Function.update_self] at h
      cases h
    · rwa [Function.update_of_ne hne] at h
  cases a with
  | get j | set j value | getOrInit j =>
    simp only [OnceCell.step, St.begin] at hst
    split at hst <;> cases hst
    exact hclear hwoken
  | poll j =>
    simp only [OnceCell.step] at hst
    split at hst <;> cases hst <;> exact hclear hwoken
  | dropFuture j =>
    simp only [OnceCell.step] at hst
    split at hst <;> cases hst
    exact (woken_set s j _ i).symm.trans hwoken
  | run j outcome =>
    simp only [OnceCell.step] at hst
    split at hst
    · next pc hj =>
      cases hst
      have hkeep {act : Activity T} (h : ((s.set j act).task i).woken) : (s.task i).woken :=
        (woken_set s j act i).symm.trans h
      cases pc with
      | wakeAll caller =>
        have hwins := hs.2 j
        rw [St.acts, hj] at hwins
        cases hwins
      | register | cancel _ | write _ _ | publish _ | getRead => exact hkeep hwoken
      | _ =>
        simp only [run] at hwoken
        split at hwoken <;> exact hkeep hwoken
    · cases hst

theorem abandon_stuck (hinv : s.Inv h) (hst : abandon j s = some s') :
    s'.Inv h ∧ Stuck s' := by
  have hj : s.acts j = .pendingInit ∨ s.acts j = .call .initPoll := by
    unfold abandon at hst
    split at hst
    · next hj => exact .inl hj
    · next hj => exact .inr hj
    · cases hst
  have hset : s' = s.set j .idle := by
    rcases hj with hj | hj <;> rw [St.acts] at hj <;> rw [abandon, hj] at hst <;> cases hst <;> rfl
  have hwon : (s.acts j).wins ∧ s.state = .initializing := by
    have hok := hinv.ok j
    rcases hj with hj | hj <;> rw [hj] at hok ⊢ <;> exact ⟨rfl, hok.1⟩
  subst hset
  refine ⟨Inv.set hinv (.inl rfl) trivial, hwon.2, fun i => ?_⟩
  rw [acts_set]
  rcases eq_or_ne i j with rfl | hne
  · rw [Function.update_self]
    rfl
  · rw [Function.update_of_ne hne]
    exact hinv.others hwon.1 i hne

end

/-! ## Runs -/

/-- Unless a future has been lost, some task has won a cell that is being initialised. -/
structure Held (p : St ι T × Hist T × Bool) : Prop where
  inv : p.1.Inv p.2.1
  won : p.2.2 = false → p.1.state = .initializing → ∃ i, (p.1.acts i).wins
  lost : p.2.2 = true → Stuck p.1

section

variable {p p' : St ι T × Hist T × Bool} {j : ι}

theorem Held.step (h : Held p) {a : LossyAct ι T}
    (hst : withHist lossyStep lossyUpd a p = some p') : Held p' := by
  obtain ⟨s', hstep, rfl⟩ := Option.map_eq_some_iff.mp hst
  cases a with
  | act a =>
    refine ⟨Inv.step h.inv hstep, fun hlost hstate => ?_,
      fun hlost => (h.lost hlost).step h.inv hstep⟩
    cases step_turns h.inv hstep with
    | keep hstate' hwins =>
      obtain ⟨i, hi⟩ := h.won hlost (hstate'.symm.trans hstate)
      exact ⟨i, (hwins i).trans hi⟩
    | win i _ _ hwins => exact ⟨i, hwins⟩
    | done i _ hinit => cases hinit.symm.trans hstate
  | abandon j =>
    obtain ⟨hinv, hstuck⟩ := abandon_stuck h.inv hstep
    exact ⟨hinv, nofun, fun _ => hstuck⟩

theorem held {tr : List (LossyAct ι T)} (hrun : LossyRun tr p) : Held p := by
  refine hrun.invariant (I := fun _ p => Held p) ?_ fun _ _ _ _ h _ hst => h.step hst
  rintro ⟨s, h, lost⟩ ⟨hcreated, rfl⟩
  refine ⟨(created_inv hcreated).1, fun _ hstate => ?_, nofun⟩
  rcases hcreated with heq | ⟨value, heq⟩ <;> cases heq <;> cases hstate

/-- Once a future has been lost, nothing is returned any more. -/
theorem Held.exec_lost (h : Held p) (hlost : p.2.2 = true) {as : List (LossyAct ι T)}
    (he : exec (withHist lossyStep lossyUpd) as p = some p') :
    p'.2.1.returned = p.2.1.returned ∧ p'.2.1.oks = p.2.1.oks := by
  induction as generalizing p with
  | nil =>
    cases he
    exact ⟨rfl, rfl⟩
  | cons a as ih =>
    obtain ⟨p₁, hst, he⟩ := Option.bind_eq_some_iff.mp he
    have hsame : (p₁.2.1.returned = p.2.1.returned ∧ p₁.2.1.oks = p.2.1.oks) ∧ p₁.2.2 = true := by
      obtain ⟨s₁, -, rfl⟩ := Option.map_eq_some_iff.mp hst
      cases a with
      | act a => exact ⟨(h.lost hlost).upd h.inv a, hlost⟩
      | abandon j => exact ⟨⟨rfl, rfl⟩, rfl⟩
    obtain ⟨hreturned, hoks⟩ := ih (h.step hst) hsame.2 he
    exact ⟨hreturned.trans hsame.1.1, hoks.trans hsame.1.2⟩

theorem Held.not_usable (h : Held p) (hlost : p.2.2 = true) : ¬ Usable p := by
  rintro ⟨as, p', he, hmore⟩
  obtain ⟨hreturned, hoks⟩ := h.exec_lost hlost he
  rw [hreturned, hoks] at hmore
  exact hmore.elim (lt_irrefl _) (lt_irrefl _)

/-! ## A call that succeeds -/

theorem Usable.step {a : LossyAct ι T} (hst : withHist lossyStep lossyUpd a p = some p')
    (hreturned : p'.2.1.returned = p.2.1.returned) (hoks : p'.2.1.oks = p.2.1.oks)
    (h : Usable p') : Usable p := by
  obtain ⟨as, q, he, hmore⟩ := h
  refine ⟨a :: as, q, ?_, hreturned ▸ hoks ▸ hmore⟩
  rw [exec, hst]
  exact he

theorem Usable.last {a : LossyAct ι T} (hst : withHist lossyStep lossyUpd a p = some p')
    (hmore : p.2.1.returned.length < p'.2.1.returned.length ∨
      p.2.1.oks.length < p'.2.1.oks.length) : Usable p := by
  refine ⟨[a], p', ?_, hmore⟩
  rw [exec, hst]
  rfl

theorem lossy_begin {pc : Pc T} {a : Act ι T} (hj : p.1.acts j = .idle)
    (hstep : step a p.1 = p.1.begin j pc) (hupd : upd a p.1 p.2.1 = p.2.1) :
    withHist lossyStep lossyUpd (.act a) p =
      some ({ p.1 with task := Function.update p.1.task j ⟨.call pc, false⟩ }, p.2) := by
  rw [St.acts] at hj
  simp only [withHist, lossyStep, hstep, St.begin, lossyUpd, hupd, hj, Option.map_some]

theorem lossy_run {pc : Pc T} (hj : p.1.acts j = .call pc) (outcome : Option T) :
    withHist lossyStep lossyUpd (.act (.run j outcome)) p =
      some (run j outcome p.1 pc, record p.1 p.2.1 pc, p.2.2) := by
  rw [St.acts] at hj
  simp only [withHist, lossyStep, step, lossyUpd, upd, hj, Option.map_some]

theorem acts_goto_self (s : St ι T) (j : ι) (pc : Pc T) : (s.goto j pc).acts j = .call pc := by
  rw [St.goto, acts_set, Function.update_self]

theorem acts_goto_of_ne (s : St ι T) {i j : ι} (hne : j ≠ i) (pc : Pc T) :
    (s.goto i pc).acts j = s.acts j := by
  rw [St.goto, acts_set, Function.update_of_ne hne]

theorem usable_of_uninit (huninit : p.1.state = .uninit) (hj : p.1.acts j = .idle) (value : T) :
    Usable p := by
  refine .step (lossy_begin (a := .set j value) hj rfl rfl) rfl rfl ?_
  refine .step (@lossy_run _ _ _ _ j (.setCas value) ?_ none) ?_ ?_ ?_
  · rw [acts_update, Function.update_self]
  · simp [record, huninit]
  · simp [record, huninit]
  simp only [run, huninit, if_true]
  refine .step (lossy_run (j := j) (acts_goto_self ..) none) rfl rfl ?_
  refine .step (lossy_run (j := j) (acts_goto_self ..) none) rfl rfl ?_
  refine .last (lossy_run (j := j) (acts_goto_self ..) none) (.inr ?_)
  simp [record, Hist.oks, Except.isOk, Except.toBool]

theorem Held.usable_of_init (h : Held p) (hinit : p.1.state = .init) (hj : p.1.acts j = .idle) :
    Usable p := by
  obtain ⟨value, hdata, -⟩ := h.inv.full hinit
  refine .step (lossy_begin (a := .getOrInit j) hj rfl rfl) rfl rfl ?_
  refine .step (@lossy_run _ _ _ _ j .loopLoad ?_ none) rfl rfl ?_
  · rw [acts_update, Function.update_self]
  refine .last (@lossy_run _ _ _ _ j .loopRead ?_ none) (.inl ?_)
  · simp only [run, hinit, if_true]
    exact acts_goto_self ..
  · simp [record, Hist.return, run, hinit, hdata, St.goto, St.set]

section

variable {i : ι} (hj : p.1.acts j = .idle) (hne : j ≠ i)

include hj hne

theorem Held.usable_of_publish (h : Held p) {caller : Caller T}
    (hi : p.1.acts i = .call (.publish caller)) : Usable p := by
  have hst := lossy_run hi none
  exact .step hst rfl rfl ((h.step hst).usable_of_init rfl ((acts_goto_of_ne p.1 hne _).trans hj))

theorem Held.usable_of_write (h : Held p) {caller : Caller T} {value : T}
    (hi : p.1.acts i = .call (.write caller value)) : Usable p := by
  have hst := lossy_run hi none
  exact .step hst rfl rfl <| (h.step hst).usable_of_publish
    ((acts_goto_of_ne p.1 hne _).trans hj) hne (acts_goto_self p.1 i (.publish caller))

theorem Held.usable_of_initPoll (h : Held p) (value : T) (hi : p.1.acts i = .call .initPoll) :
    Usable p := by
  have hst := lossy_run hi (some value)
  exact .step hst rfl rfl <| (h.step hst).usable_of_write
    ((acts_goto_of_ne p.1 hne _).trans hj) hne (acts_goto_self p.1 i (.write .getOrInit value))

end

/-- As long as nobody is lost, whoever has won the cell can bring its initialisation to an end. -/
theorem Held.usable (h : Held p) (hlost : p.2.2 = false) (hj : p.1.acts j = .idle) (value : T) :
    Usable p := by
  cases hstate : p.1.state with
  | uninit => exact usable_of_uninit hstate hj value
  | init => exact h.usable_of_init hstate hj
  | initializing =>
    obtain ⟨i, hwins⟩ := h.won hlost hstate
    have hok := h.inv.ok i
    have hne : j ≠ i := by
      rintro rfl
      rw [hj] at hwins
      cases hwins
    cases hi : p.1.acts i with
    | idle | pendingWait =>
      rw [hi] at hwins
      cases hwins
    | pendingInit =>
      have hpoll : withHist lossyStep lossyUpd (.act (.poll i)) p =
          some ({ p.1 with task := Function.update p.1.task i ⟨.call .initPoll, false⟩ }, p.2) := by
        rw [St.acts] at hi
        simp only [withHist, lossyStep, OnceCell.step, lossyUpd, upd, hi, Option.map_some]
      refine .step hpoll rfl rfl ((h.step hpoll).usable_of_initPoll ?_ hne value (i := i) ?_)
      · rw [acts_update, Function.update_of_ne hne, hj]
      · rw [acts_update, Function.update_self]
    | call pc =>
      rw [hi] at hwins hok
      cases pc with
      | initPoll => exact h.usable_of_initPoll hj hne value hi
      | write caller value => exact h.usable_of_write hj hne hi
      | publish caller => exact h.usable_of_publish hj hne hi
      | wakeAll caller => cases hstate.symm.trans hok.1
      | _ => cases hwins

/-- **A cell stays usable exactly as long as no future that has won it is lost.** In every state of
every run in which some task is at nothing. Once one is lost, nobody is woken. -/
theorem usable_iff {tr : List (LossyAct ι T)} (hrun : LossyRun tr p) (value : T)
    (hj : (p.1.task j).activity = .idle) :
    (Usable p ↔ p.2.2 = false) ∧ (p.2.2 = true → ∀ a p', withHist lossyStep lossyUpd a p = some p' →
      ∀ i, (p'.1.task i).woken → (p.1.task i).woken) := by
  have hheld := held hrun
  refine ⟨⟨fun husable => ?_, fun hlost => hheld.usable hlost hj value⟩, ?_⟩
  · exact Bool.eq_false_iff.mpr fun hlost => hheld.not_usable hlost husable
  · intro hlost a p' hst i hwoken
    obtain ⟨s', hstep, rfl⟩ := Option.map_eq_some_iff.mp hst
    cases a with
    | act a => exact (hheld.lost hlost).woken hstep hwoken
    | abandon k =>
      simp only [lossyStep, abandon] at hstep
      split at hstep <;> cases hstep <;> exact (woken_set p.1 k .idle i).symm.trans hwoken

end

/-- Task 0 runs the initialiser, which is pending; task 1 waits for it. -/
def waitForInit : List (LossyAct (Fin 3) Nat) :=
  [[.act (.getOrInit 0)], .replicate 3 (.act (.run 0 none)),
    [.act (.getOrInit 1)], .replicate 5 (.act (.run 1 none))].flatten

theorem usable_iff_waitForInit :
    ∃ p, LossyRun waitForInit.reverse p ∧ p.1.state = .initializing ∧ Usable p := by
  have hrun : LossyRun waitForInit.reverse _ :=
    Run.of_exec waitForInit (s := (.new, .empty, false)) ⟨.inl rfl, rfl⟩ rfl
  exact ⟨_, hrun, rfl, (usable_iff hrun 0 (j := 2) rfl).1.mpr rfl⟩

/-- The same, and the future of task 0 is dropped. -/
def dropDuringInit : List (LossyAct (Fin 3) Nat) := waitForInit ++ [.abandon 0]

/-- Task 1 is not woken, and the cell is of no use any more. -/
theorem abandoned_strands_waiter :
    ∃ p, LossyRun dropDuringInit.reverse p ∧ (p.1.task 1).activity.isPending ∧
      (p.1.task 1).woken = false ∧ ¬ Usable p := by
  obtain ⟨p, hrun, hpending, hwoken, hlost⟩ : ∃ p, LossyRun dropDuringInit.reverse p ∧
      (p.1.task 1).activity.isPending ∧ (p.1.task 1).woken = false ∧ p.2.2 = true :=
    Run.exists_of_exec dropDuringInit (.new, .empty, false) ⟨.inl rfl, rfl⟩ (by decide +kernel)
  exact ⟨p, hrun, hpending, hwoken, (held hrun).not_usable hlost⟩

end Dtact.OnceCell
