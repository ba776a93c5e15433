import Dtact.Runtime.Payload
import Dtact.Runtime.Reclaim

/-!
# A context serves one fiber at a time

A context goes from the free list through a spawn to a fiber, and through `free_context` back. The
wakers of the fibers it has had may store `Notified` in its state word at any time.
-/

namespace Dtact.Runtime

open Transition

theorem Moves.freed {n i : Nat} [NeZero n] {word word' : FiberStatus} {control control' : Control}
    {seat' : Seat}
    (h : Moves n i ⟨word, control, .on .freePush⟩ (some .free) ⟨word', control', seat'⟩) :
    seat' = .out := by
  cases h
  rfl

/-- How often a fiber was started in a context, how often one has stored `Finished`, and how often
the context was pushed to the free list. -/
structure Rounds where
  started : Nat
  finished : Nat
  freed : Nat
deriving DecidableEq

namespace Machine

variable {n cap hosts : Nat} {rt rt' : Machine n cap hosts} {a : Act n hosts}

variable {i : Fin cap} {r : Rounds} {tr : List (Act n hosts)}

/-- The action is the last store of `free_context`. -/
def Frees (rt : Machine n cap hosts) (a : Act n hosts) (i : Fin cap) : Prop :=
  ∃ w, a = .settle w ∧ rt.workers w = .on .freePush i

instance (rt : Machine n cap hosts) (a : Act n hosts) (i : Fin cap) : Decidable (rt.Frees a i) :=
  inferInstanceAs (Decidable (∃ _, _))

def noteRound (i : Fin cap) (a : Act n hosts) (rt : Machine n cap hosts) (r : Rounds) : Rounds where
  started := if (rt.launches a).map Prod.snd = some i.val then r.started + 1 else r.started
  finished := if rt.event i a = some .finish then r.finished + 1 else r.finished
  freed := if rt.Frees a i then r.freed + 1 else r.freed

theorem launches_iff : (rt.launches a).map Prod.snd = some i.val ↔ rt.Starts a i := by
  simp [Payload.starts_iff]

/-! ## Live fibers -/

variable [NeZero n]

theorem sound_of_run (h : Run Initial step Free tr rt) : rt.Sound := by
  refine Run.invariant (I := fun _ rt => rt.Sound) ?_ (fun _ _ _ _ hs _ => hs.step) h
  rintro _ ⟨topology, rfl⟩
  exact sound_new topology

/-- **No live fiber is recycled.** As long as a fiber has not stored `Finished`, its context is not
on the free list, no thread is about to start another fiber in it, and no worker frees it. -/
theorem live_context_kept (h : Run Initial step Free tr rt)
    (hu : (rt.shared.fibers i).unfinished) :
    i.val ∉ rt.shared.free ∧ (∀ a, ¬ rt.Starts a i) ∧
      ∀ w stage, rt.workers w = .on stage i →
        ¬ (stage = .freeState ∨ stage = .freeGen ∨ stage = .freePush) := by
  have hs := sound_of_run h
  have hlive : (rt.shared.fibers i).gone = false := Control.not_gone hu
  have hidle : rt.idle i = 0 := by
    by_contra hne
    cases (hs.idle i (Nat.pos_of_ne_zero hne)).symm.trans hlive
  refine ⟨fun hfree => ?_, fun a hstart => ?_, fun w stage hw hstage => ?_⟩
  · have hpos := List.count_pos_iff.mpr hfree
    simp only [idle] at hidle
    omega
  · exact (Sound.idle_of_starts hstart).ne' hidle
  · cases (hs.freeing hw hstage).symm.trans hlive

theorem live_context_kept_two : ∃ rt : Machine 2 2 1,
    Run Initial step Free parkAndWake.reverse rt ∧ 0 ∉ rt.shared.free := by
  obtain ⟨rt, h, hu⟩ : ∃ rt : Machine 2 2 1, Run Initial step Free parkAndWake.reverse rt ∧
      (rt.shared.fibers 0).unfinished :=
    Run.exists_of_exec parkAndWake (new 2 2 1 .p2pMesh) ⟨.p2pMesh, rfl⟩ (by decide +kernel)
  exact ⟨rt, h, (live_context_kept (i := 0) h hu).1⟩

/-- **The state word of a live fiber.** After every step it says that the fiber is alive, unless
the fiber itself has stored `Finished`. The other threads store `Notified` in it to wake the fiber,
and the worker that has the fiber exchanges `Suspending` for `Yielded`; they do nothing else. -/
theorem live_word_guarded (h : Run Initial step Free tr rt)
    (hu : (rt.shared.fibers i).unfinished) (hst : step a rt = some rt') :
    (Alive (rt'.shared.ctx i).state ∨
      rt.event i a = some .finish ∧ (rt'.shared.ctx i).state = .finished) ∧
    (rt.Elsewhere a i → rt.WordAct a i (rt.shared.ctx i).state (rt'.shared.ctx i).state) := by
  have hs := sound_of_run h
  refine ⟨?_, fun hother => hs.step_wordAct hst hother hu⟩
  have hocc := hs.occupancy hst i
  rw [hu] at hocc
  cases hu' : (rt'.shared.fibers i).unfinished with
  | true => exact .inl ((hs.step hst).alive hu')
  | false =>
    rw [hu'] at hocc
    cases hocc with
    | finish _ hev =>
      obtain ⟨w, rfl, hw, hc⟩ := event_finish hev
      refine .inr ⟨hev, ?_⟩
      have hown : ¬ rt.Elsewhere (.run (.fiber w)) i := fun hother => (hother w i hw rfl).1 rfl
      cases step_own hst hown with
      | epilogue _ hc' =>
        cases hc.symm.trans hc'
        exact rt.shared.setState_self i _
      | body _ hc' _ | late _ hc' _ _ | abort _ hc' _ _ => cases hc.symm.trans hc'

theorem live_word_guarded_wake : ∃ rt rt' : Machine 2 2 1,
    Run Initial step Free (parkAndWake.take 13).reverse rt ∧
      step (.run (.host 0)) rt = some rt' ∧ (rt.shared.fibers 0).unfinished ∧
      (rt.shared.ctx 0).state = .yielded ∧ (rt'.shared.ctx 0).state = .notified := by
  obtain ⟨rt, h, hu, hsome, hword, hwake⟩ : ∃ rt : Machine 2 2 1,
      Run Initial step Free (parkAndWake.take 13).reverse rt ∧ (rt.shared.fibers 0).unfinished ∧
      (step (.run (.host 0)) rt).isSome ∧ (rt.shared.ctx 0).state = .yielded ∧
      rt.event 0 (.run (.host 0)) = some .wake :=
    Run.exists_of_exec (parkAndWake.take 13) (new 2 2 1 .p2pMesh) ⟨.p2pMesh, rfl⟩
      (by decide +kernel)
  obtain ⟨rt', hst⟩ := Option.isSome_iff_exists.mp hsome
  have hother : rt.Elsewhere (.run (.host 0)) 0 := fun _ _ _ _ => ⟨by simp, by simp⟩
  refine ⟨rt, rt', h, hst, hu, hword, ?_⟩
  have hact : rt.WordAct _ 0 (rt.shared.ctx 0).state (rt'.shared.ctx 0).state :=
    (live_word_guarded h hu hst).2 hother
  generalize (rt'.shared.ctx 0).state = word at hact ⊢
  rw [hword] at hact
  cases hact with
  | keep hne => exact absurd hwake hne
  | wake => rfl

/-! ## Rounds -/

/-- What the counts are, by who has the context. -/
structure Recycled (i : Fin cap) (rt : Machine n cap hosts) (r : Rounds) : Prop where
  sound : rt.Sound
  finished : r.started = r.finished + (rt.shared.fibers i).unfinished.toNat
  idle : 0 < rt.idle i → r.started = r.freed
  occupied : 0 < rt.live i ∨ (rt.shared.fibers i).unfinished → r.started = r.freed + 1
  bounds : r.freed ≤ r.started ∧ r.started ≤ r.freed + 1

theorem Recycled.frees (h : Recycled i rt r) (hst : step a rt = some rt') (hfree : rt.Frees a i) :
    rt'.live i = 0 ∧ (rt.shared.fibers i).unfinished = false ∧ r.started = r.freed + 1 := by
  obtain ⟨w, rfl, hw⟩ := hfree
  obtain ⟨seat, hseat, -⟩ := h.sound.fiber i
  obtain rfl := hseat.eq_on (h.sound.live_le i) hw
  obtain ⟨seat', hmove, hseat'⟩ := step_simulated hseat (h.sound.claims i) hst
  have hev : rt.event i (.settle w) = some .free := if_pos hw
  rw [hev] at hmove
  obtain rfl := Moves.freed hmove
  have hlive : 0 < rt.live i := (executing_pos hw).trans_le (executing_le_live rt i)
  exact ⟨hseat', Control.unfinished_of_gone (h.sound.freeing hw (.inr (.inr rfl))),
    h.occupied (.inl hlive)⟩

theorem Recycled.step (h : Recycled i rt r) (hst : Machine.step a rt = some rt') :
    Recycled i rt' (noteRound i a rt r) := by
  have hfinished := h.finished
  have hoccupied := h.occupied
  have hbounds := h.bounds
  have hocc := h.sound.occupancy hst i
  generalize hu : (rt.shared.fibers i).unfinished = b at hocc hfinished hoccupied
  generalize hu' : (rt'.shared.fibers i).unfinished = b' at hocc
  have hidle (hfree : ¬ rt.Frees a i) :
      rt'.idle i ≤ rt.idle i ∧ (rt.Starts a i → rt'.idle i < rt.idle i) := by
    refine (step_idle hst i).resolve_left ?_
    rintro ⟨w, k, ha, hw, hk⟩
    exact hfree ⟨w, ha, Fin.ext hk ▸ hw⟩
  cases hocc with
  | start hs hev =>
    have hfree : ¬ rt.Frees a i := by
      rintro ⟨w, rfl, -⟩
      obtain ⟨_, _, ⟨⟩, _⟩ := hs
    have hclaims := h.sound.claims i
    have hleft := (hidle hfree).2 hs
    have hstarted : r.started + 1 = r.freed + 1 :=
      congrArg (· + 1) (h.idle (Sound.idle_of_starts hs))
    simp only [noteRound, if_pos (launches_iff.mpr hs), if_neg hfree, hev, reduceCtorEq, if_false]
    exact ⟨h.sound.step hst, by rw [hu', hfinished]; rfl, fun hpos => absurd hpos (by omega),
      fun _ => hstarted, Nat.le_succ_of_le hbounds.1, hstarted.le⟩
  | finish hns hev =>
    have hfree : ¬ rt.Frees a i := by
      obtain ⟨w, rfl, -⟩ := event_finish hev
      rintro ⟨_, ⟨⟩, -⟩
    have hle := (hidle hfree).1
    simp only [noteRound, if_neg (mt launches_iff.mp hns), if_neg hfree, if_pos hev]
    exact ⟨h.sound.step hst, by rw [hu', hfinished]; rfl, fun hpos => h.idle (hpos.trans_le hle),
      fun _ => hoccupied (.inr rfl), hbounds⟩
  | same hns hev =>
    by_cases hfree : rt.Frees a i
    · obtain ⟨hleft, hgone, hstarted⟩ := h.frees hst hfree
      simp only [noteRound, if_neg (mt launches_iff.mp hns), if_pos hfree, if_neg hev]
      refine ⟨h.sound.step hst, by rw [hu', hfinished], fun _ => hstarted, ?_, hstarted.ge,
        hstarted.le.trans (Nat.le_succ _)⟩
      rw [hleft, hu', ← hu, hgone]
      rintro (⟨⟨⟩⟩ | ⟨⟨⟩⟩)
    · have hle := (hidle hfree).1
      have hlive : rt'.live i ≤ rt.live i := (step_spends hst i).live.resolve_left hns
      simp only [noteRound, if_neg (mt launches_iff.mp hns), if_neg hfree, if_neg hev]
      refine ⟨h.sound.step hst, by rw [hu', hfinished], fun hpos => h.idle (hpos.trans_le hle), ?_,
        hbounds⟩
      rw [hu']
      exact fun ho => hoccupied (ho.imp_left hlive.trans_lt')

/-- **Contexts are recycled one fiber at a time.** A context is freed at most once for each fiber
that has stored `Finished` in it, and a fiber is started in it only after it has been freed from
the one before; on the free list it has been freed as often as fibers were started in it. -/
theorem contexts_recycled
    (h : Run (initHist Initial ⟨0, 0, 0⟩) (withHist step (noteRound i)) Free tr (rt, r)) :
    r.freed ≤ r.finished ∧ r.finished ≤ r.started ∧ r.started ≤ r.freed + 1 ∧
    ((rt.shared.fibers i).unfinished → r.finished = r.freed) ∧
    (i.val ∈ rt.shared.free → r.started = r.freed) := by
  have hr : Recycled i rt r := by
    refine h.hist_invariant (I := Recycled i) ?_ (fun _ _ _ _ hp _ hst => hp.step hst)
    rintro rt ⟨topology, rfl⟩
    refine ⟨sound_new topology, rfl, fun _ => rfl, ?_, le_rfl, Nat.le_succ _⟩
    have hlive : (new n cap hosts topology).live i = 0 := seatAt_new topology i
    rw [hlive]
    rintro (⟨⟨⟩⟩ | ⟨⟨⟩⟩)
  have hfinished := hr.finished
  have hbounds := hr.bounds
  refine ⟨?_, by omega, hbounds.2, fun hu => ?_, fun hfree => hr.idle ?_⟩
  · cases hu : (rt.shared.fibers i).unfinished with
    | false =>
      rw [hu, Bool.toNat_false] at hfinished
      omega
    | true =>
      have hoccupied := hr.occupied (.inr hu)
      rw [hu, Bool.toNat_true] at hfinished
      omega
  · have hoccupied := hr.occupied (.inr hu)
    rw [hu, Bool.toNat_true] at hfinished
    omega
  · have hpos := List.count_pos_iff.mpr hfree
    simp only [idle]
    omega

/-- A fiber returns, its context is freed, and another fiber is started in it. -/
theorem contexts_recycled_twice : ∃ (tr : List (Act 1 1)) (rt : Machine 1 1 1) (r : Rounds),
    Run (initHist Initial ⟨0, 0, 0⟩) (withHist step (noteRound 0)) Free tr (rt, r) ∧
    r.started = 2 ∧ r.finished = r.freed := by
  obtain ⟨⟨rt, r⟩, h, hstarted, hu⟩ : ∃ p : Machine 1 1 1 × Rounds,
      Run (initHist Initial ⟨0, 0, 0⟩) (withHist step (noteRound 0)) Free _ p ∧
        p.2.started = 2 ∧ (p.1.shared.fibers 0).unfinished :=
    Run.exists_of_exec (returnAndFree ++ .replicate 3 (.settle 0) ++ spawnAndReturn)
      (new 1 1 1 .p2pMesh, ⟨0, 0, 0⟩) ⟨⟨.p2pMesh, rfl⟩, rfl⟩ (by decide +kernel)
  exact ⟨_, rt, r, h, hstarted, (contexts_recycled (i := 0) h).2.2.2.1 hu⟩

end Machine

end Dtact.Runtime
