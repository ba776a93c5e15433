import Dtact.Runtime.Stacks

/-!
# Waits inside a poll

The future of a `wait_pinned` loop may call `wait` or `dtact_await` from its poll, to any depth. All
loops of a fiber share its state word: a wake stores `Notified`, whichever loop it is for, and each
loop stores `Running` before it polls. Loops are told apart by their depth.
-/

namespace Dtact.Runtime

open Scheduler Transition

/-! ## Loops and their wakes -/

/-- The next step of the call overwrites the state word, whatever is in it. -/
def Call.overwrites : Call → Bool
  | .wait .store => true
  | .await _ _ .swap => true
  | .yieldTo .store => true
  | _ => false

def loopDepths : List Call → List Nat
  | [] => []
  | .wait _ :: below => below.length :: loopDepths below
  | _ :: below => loopDepths below

/-- The poll has returned `Pending` and the loop goes on, or it has not polled yet. -/
def WaitPc.loops : WaitPc → Bool
  | .load | .store | .callPoll | .pending | .spin _ _ _ | .penalize _ _ | .cas => true
  | _ => false

section

variable {n cap hosts : Nat}

/-- An action of the runtime. If it is a wake, the second component says for the loops at
which depths it is. -/
abbrev Told (n hosts : Nat) := Act n hosts × (Nat → Bool)

def toldStep [NeZero n] (x : Told n hosts) (rt : Machine n cap hosts) :
    Option (Machine n cap hosts) :=
  Machine.step x.1 rt

/-- Whether the loop at a depth has been woken since its latest poll began. -/
def noteLoops (i : Fin cap) (x : Told n hosts) (rt : Machine n cap hosts) (woken : Nat → Bool) :
    Nat → Bool :=
  match rt.event i x.1 with
  | some .wake => fun d => woken d || x.2 d
  | some .poll => Function.update woken ((rt.shared.fibers i).calls.length - 1) false
  | _ => woken

/-- A loop on the top of the stack that was woken during its poll is not suspended. On a
worker, the steps of the fiber alone lead to its next poll. -/
def PollsAgain [NeZero n] (i : Fin cap) (rt : Machine n cap hosts) (woken : Nat → Bool) : Prop :=
  ∀ (pc : WaitPc) (below : List Call), rt.shared.fibers i = .body (.wait pc :: below) →
    woken below.length →
    (rt.shared.ctx i).state ≠ .yielded ∧ (rt.shared.ctx i).state ≠ .suspending ∧
    ∀ w, rt.workers w = .on .running i → rt.aborted = false → pc.loops →
      ∃ (k : Nat) (rt' : Machine n cap hosts) (pc' : WaitPc),
        exec Machine.step (.replicate k (.run (.fiber w))) rt = some rt' ∧
        rt'.shared.fibers i = .body (.wait pc' :: below) ∧ (Call.wait pc').isPoll

/-- No call overwrites the state word while a loop below it has been woken. -/
def Unswallowed (i : Fin cap) (p : Machine n cap hosts × (Nat → Bool)) : Told n hosts → Prop
  | (.run (.fiber w), _) =>
    p.1.workers w = .on .running i → ∀ c ∈ (p.1.shared.fibers i).calls.head?, c.overwrites →
      ∀ d ∈ loopDepths (p.1.shared.fibers i).calls.tail, p.2 d = false
  | _ => True

instance (i : Fin cap) (p : Machine n cap hosts × (Nat → Bool)) :
    (x : Told n hosts) → Decidable (Unswallowed i p x)
  | (.run (.fiber w), _) =>
    inferInstanceAs (Decidable (p.1.workers w = .on .running i →
      ∀ c ∈ (p.1.shared.fibers i).calls.head?, c.overwrites →
        ∀ d ∈ loopDepths (p.1.shared.fibers i).calls.tail, p.2 d = false))
  | (.run (.host _), _) | (.user _ _, _) | (.dispatch _, _) | (.settle _, _) | (.poll _, _)
  | (.drain _, _) => inferInstanceAs (Decidable True)

abbrev NestedRun [NeZero n] (i : Fin cap) :
    List (Told n hosts) → Machine n cap hosts × (Nat → Bool) → Prop :=
  Run (initHist Machine.Initial fun _ => false) (withHist toldStep (noteLoops i)) (Unswallowed i)

end

/-! ## The state word keeps a wake -/

section

variable {n : Nat} {who : Who n} {sh : Shared n} {c : Call} {next : Next n} {i : Nat}

/-- Only the calls that overwrite the state word remove a wake from it. -/
theorem Call.run_notified [NeZero n] (hspawn : i ∉ c.spawns) (hr : c.run who sh = some next)
    (hc : c.overwrites = false) (h : (sh.ctx i).state = .notified) :
    (next.shared.ctx i).state = .notified := by
  rcases Call.run_word hspawn hr with he | he | ⟨c', state, hs, hcas, rfl⟩
  · exact he.trans h
  · exact he
  · cases hs with
    | wait | await | yieldTo => cases hc
    | waitCas | awaitCas =>
      rcases hcas rfl with heq | hrun
      · cases heq
      · cases h.symm.trans hrun
    | wakeFiber | spawn => exact sh.setState_self i _

end

/-! ## The loops of a fiber -/

theorem mem_loopDepths {pc : WaitPc} {below calls : List Call}
    (h : .wait pc :: below <:+ calls) : below.length ∈ loopDepths calls := by
  induction calls with
  | nil => cases List.suffix_nil.mp h
  | cons c calls ih =>
    rcases List.suffix_cons_iff.mp h with heq | hsuf
    · cases heq
      exact List.mem_cons_self
    · have hmem := ih hsuf
      cases c with
      | wait pc' => exact List.mem_cons_of_mem _ hmem
      | _ => exact hmem

/-- The loops after a decision of user code: those that were there, and the one it
enters. -/
theorem UserAct.onFiber_loops {u : UserAct} {calls : List Call} {c : Control} {pc : WaitPc}
    {below : List Call} (h : u.onFiber calls = some c) (hloop : .wait pc :: below <:+ c.calls) :
    c = .body (.wait .load :: calls) ∧ pc = .load ∧ below = calls ∨
      ∃ pc', .wait pc' :: below <:+ calls := by
  have hpush {c' : Call} (hc : c'.isWait = false) (hloop : .wait pc :: below <:+ c' :: calls) :
      ∃ pc', .wait pc' :: below <:+ calls := by
    rcases List.suffix_cons_iff.mp hloop with heq | hsuf
    · cases heq
      cases hc
    · exact ⟨pc, hsuf⟩
  cases onFiber_leads h with
  | wait =>
    rcases List.suffix_cons_iff.mp hloop with heq | hsuf
    · cases heq
      exact .inl ⟨rfl, rfl, rfl⟩
    · exact .inr ⟨pc, hsuf⟩
  | yieldTo =>
    rcases List.suffix_cons_iff.mp hloop with heq | hsuf
    · cases heq
    · exact .inr (hpush rfl hsuf)
  | wake | spawn | await => exact .inr (hpush rfl hloop)
  | poll =>
    rcases List.suffix_cons_iff.mp hloop with heq | hsuf
    · cases heq
      exact .inr ⟨_, List.suffix_refl _⟩
    · exact .inr ⟨pc, hsuf.trans (List.suffix_cons _ _)⟩
  | done => cases List.suffix_nil.mp hloop
  | unwind => exact .inr ⟨pc, (hloop.trans (List.dropWhile_suffix _)).trans (List.suffix_cons _ _)⟩

/-- The loops after a step of a call: those below it, and the one the call is. -/
theorem Call.next_loops {n : Nat} [NeZero n] {who : Who n} {sh : Shared n} {c : Call}
    {next : Next n} {rest below : List Call} {pc : WaitPc} (hr : c.run who sh = some next)
    (hloop : .wait pc :: below <:+ next.calls rest) :
    .wait pc :: below <:+ rest ∨
      below = rest ∧ next.own = [.wait pc] ∧ ∃ pc', c = .wait pc' := by
  cases next with
  | panic sh' => exact .inl (hloop.trans (List.dropWhile_suffix _))
  | goto calls sh' | switch calls sh' =>
    rcases Call.run_follows hr with hown | ⟨c', hown, hf⟩
    · obtain rfl : calls = [] := hown
      exact .inl hloop
    · obtain rfl : calls = [c'] := hown
      rcases List.suffix_cons_iff.mp hloop with heq | hsuf
      · cases heq
        cases hf
        exact .inr ⟨rfl, rfl, _, rfl⟩
      · exact .inl hsuf

theorem Moves.wake_word {n i : Nat} [NeZero n] {v v' : View} {e : Option Event}
    (h : Moves n i v e v') (he : e = some .wake) : v'.word = .notified := by
  have hcall {c : Call} {who : Who n} {sh : Shared n} {next : Next n} {own : Option Event}
      (hr : c.run who sh = some next) (hown : own ≠ some .wake)
      (he : (c.wakeEvent i).or own = some .wake) : (next.shared.ctx i).state = .notified := by
    rcases Option.or_eq_some_iff.mp he with hwake | ⟨_, he⟩
    · rw [(Call.run_wake hwake hr).2, sh.setState_self]
    · exact absurd he hown
  have hcallOwn (c : Call) : c.ownEvent ≠ some .wake := by
    unfold Call.ownEvent
    split
    · nofun
    · split <;> nofun
    · nofun
  cases h with
  | wake => rfl
  | @user _ u calls _ _ _ =>
    unfold UserAct.event at he
    split at he <;> cases he
  | @body _ c _ _ _ _ _ _ _ hr => exact hcall hr (hcallOwn c) he
  | @late _ pc c rest _ _ _ _ _ _ hr _ =>
    refine hcall hr ?_ he
    unfold Control.ownEvent
    split <;> first | exact hcallOwn _ | nofun
  | _ => cases he

namespace Machine

variable {n cap hosts : Nat} {rt rt' : Machine n cap hosts} {a : Act n hosts} {i : Fin cap}

theorem Sound.wake_word [NeZero n] (hs : rt.Sound) (hst : Machine.step a rt = some rt')
    (he : rt.event i a = some .wake) : (rt'.shared.ctx i).state = .notified := by
  obtain ⟨seat, hseat, -⟩ := hs.fiber i
  obtain ⟨seat', hmove, -⟩ := step_simulated hseat (hs.claims i) hst
  exact Moves.wake_word hmove he

theorem event_poll {w : Fin n} {c : Call} {rest : List Call} (hw : rt.workers w = .on .running i)
    (hc : rt.shared.fibers i = .body (c :: rest)) (hpoll : c.ownEvent = some .poll) :
    rt.event i (.run (.fiber w)) = some .poll := by
  have hcall : rt.nextCall (.fiber w) = some c := by simp [nextCall, hw, hc, Control.calls]
  have hwake : c.wakeEvent i = none := by
    cases c with
    | wait pc => rfl
    | _ => cases hpoll
  rw [event_run hcall, hwake, Option.none_or, if_pos (by simpa [runs] using hw), hc]
  exact hpoll

end Machine

/-! ## The invariant -/

section

variable {n cap hosts : Nat} {rt rt' : Machine n cap hosts} {i : Fin cap} {woken : Nat → Bool}
  {x : Told n hosts}

theorem noteLoops_le {d : Nat} (hev : rt.event i x.1 ≠ some .wake)
    (h : noteLoops i x rt woken d) :
    woken d ∧ (rt.event i x.1 = some .poll → d ≠ (rt.shared.fibers i).calls.length - 1) := by
  unfold noteLoops at h
  generalize rt.event i x.1 = e at hev h
  cases e with
  | none => exact ⟨h, nofun⟩
  | some e =>
    cases e with
    | wake => exact absurd rfl hev
    | poll =>
      simp only [Function.update_apply] at h
      split at h
      · cases h
      · next hne => exact ⟨h, fun _ => hne⟩
    | _ => exact ⟨h, nofun⟩

/-- The wake of a loop is in the state word, or the loop polls before anything else. -/
def LoopsKept (i : Fin cap) (rt : Machine n cap hosts) (woken : Nat → Bool) : Prop :=
  ∀ (calls : List Call) (pc : WaitPc) (below : List Call), rt.shared.fibers i = .body calls →
    .wait pc :: below <:+ calls → woken below.length →
    (rt.shared.ctx i).state = .notified ∨
      calls = .wait pc :: below ∧ pc.beforePoll ∧ (rt.shared.ctx i).state ≠ .yielded ∧
        (rt.shared.ctx i).state ≠ .suspending

theorem LoopsKept.below {c : Call} {rest below : List Call} {pc : WaitPc}
    (hk : LoopsKept i rt woken) (hc : rt.shared.fibers i = .body (c :: rest))
    (hloop : .wait pc :: below <:+ rest) (hw : woken below.length) :
    (rt.shared.ctx i).state = .notified := by
  refine (hk _ pc below hc (hloop.trans (List.suffix_cons _ _)) hw).resolve_right ?_
  rintro ⟨heq, -⟩
  have hle := hloop.length_le
  rw [← heq, List.length_cons] at hle
  exact absurd hle (Nat.not_succ_le_self _)

theorem LoopsKept.mono {woken' : Nat → Bool} (hk : LoopsKept i rt woken)
    (hle : ∀ d, woken' d → woken d) : LoopsKept i rt woken' :=
  fun calls pc below hcalls hloop hw => hk calls pc below hcalls hloop (hle _ hw)

theorem LoopsKept.user_step {w : Fin n} {u : UserAct} {calls : List Call} {c : Control}
    (hs : rt.Sound) (hk : LoopsKept i rt woken) (hw : rt.workers w = .on .running i)
    (hc : rt.shared.fibers i = .body calls) (hu : inUser calls) (huser : u.onFiber calls = some c) :
    LoopsKept i { rt with shared := rt.shared.setFiber i c } woken := by
  intro calls' pc below hcalls hloop hwoken
  simp only [Shared.setFiber_self] at hcalls
  subst hcalls
  rcases UserAct.onFiber_loops huser hloop with ⟨heq, rfl, rfl⟩ | ⟨pc', hloop'⟩
  · cases heq
    have hd := (hs.on_worker hw).1
    simp only [Machine.view, hc] at hd
    exact .inr ⟨rfl, rfl, hd.running (Discipline.not_atSwitch hu)⟩
  · refine .inl ((hk calls pc' below hc hloop' hwoken).resolve_right ?_)
    -- the loop on the top is in a poll
    rintro ⟨rfl, hbefore, -⟩
    cases (beforePoll_eq_false hu).symm.trans hbefore

variable [NeZero n]

theorem LoopsKept.body_step {w : Fin n} {c : Call} {rest : List Call} {next : Next n}
    {woken' : Nat → Bool} (hs : rt.Sound) (hk : LoopsKept i rt woken)
    (hw : rt.workers w = .on .running i) (hc : rt.shared.fibers i = .body (c :: rest))
    (hr : c.run ⟨some i, .worker w⟩ rt.shared = some next)
    (hok : c.overwrites → ∀ d ∈ loopDepths rest, woken d = false)
    (hwoken : ∀ d, woken' d → woken d ∧ (c.ownEvent = some .poll → d ≠ rest.length)) :
    LoopsKept i (rt.proceed w i (.body (next.calls rest)) next) woken' := by
  intro calls pc below hcalls hloop hnote
  obtain ⟨hnote, hpoll⟩ := hwoken _ hnote
  simp only [Machine.proceed, Machine.setWorker, Shared.setFiber_self, Control.body.injEq] at hcalls
  subst hcalls
  simp only [Machine.proceed, Machine.setWorker, Shared.setFiber]
  have hspawn : i.val ∉ c.spawns := by
    intro hspawn
    have hgone := hs.start_gone
      ⟨.fiber w, c, rfl, by simp [Machine.nextCall, hw, hc, Control.calls], hspawn⟩
    rw [hc] at hgone
    cases hgone
  rcases Call.next_loops hr hloop with hbelow | ⟨rfl, hown, pc', rfl⟩
  · have hnot := hk.below hc hbelow hnote
    refine .inl (Call.run_notified hspawn hr ?_ hnot)
    by_contra hover
    cases (hok (by simpa using hover) _ (mem_loopDepths hbelow)).symm.trans hnote
  · -- the loop itself takes a step
    have hkept : Kept (rt.shared.ctx i).state [.wait pc'] := by
      rcases hk _ pc' below hc (List.suffix_refl _) hnote with h | ⟨_, hbefore, hword⟩
      · exact .inl h
      · exact .inr ⟨⟨pc', rfl, hbefore⟩, hword⟩
    have hcalls : next.calls [] = [.wait pc] := by
      cases next with
      | panic sh => cases hown
      | goto calls sh | switch calls sh => rw [Next.calls, List.append_nil, ← hown, Next.own]
    have hnote : noteWake (Call.wait pc').ownEvent true := by
      cases hev : (Call.wait pc').ownEvent with
      | none => rfl
      | some e =>
        cases e with
        | poll => exact absurd rfl (hpoll hev)
        | _ => rfl
    simp only [Call.run, Option.bind_some] at hr
    have hnext := (WaitPc.run_kept hr fun _ => hkept).2 hnote
    rw [hcalls] at hnext
    rcases hnext ⟨pc, List.mem_singleton_self _⟩ with h | ⟨⟨pc'', heq, hbefore⟩, hword⟩
    · exact .inl h
    · cases heq
      refine .inr ⟨?_, hbefore, hword⟩
      cases next with
      | panic sh => cases hown
      | goto calls sh | switch calls sh =>
        rw [Next.own] at hown
        rw [Next.calls, hown]
        rfl

theorem LoopsKept.step (hs : rt.Sound) (hk : LoopsKept i rt woken)
    (hok : Unswallowed i (rt, woken) x) (hst : Machine.step x.1 rt = some rt') :
    LoopsKept i rt' (noteLoops i x rt woken) := by
  by_cases hev : rt.event i x.1 = some .wake
  · exact fun _ _ _ _ _ _ => .inl (hs.wake_word hst hev)
  have hle (d : Nat) (hd : noteLoops i x rt woken d) : woken d := (noteLoops_le hev hd).1
  by_cases hother : rt.Elsewhere x.1 i
  · refine LoopsKept.mono (fun calls pc below hcalls hloop hw => ?_) hle
    rcases Machine.step_fibers hst hother with hf | ⟨_, hf⟩
    · rw [hf] at hcalls
      have hword := hs.step_word hst hother (by rw [hcalls]; rfl)
      have hkept := hk calls pc below hcalls hloop hw
      generalize (rt.shared.ctx i).state = word at hword hkept
      generalize (rt'.shared.ctx i).state = word' at hword ⊢
      cases hword with
      | keep => exact hkept
      | wake => exact .inl rfl
      | park =>
        rcases hkept with hkept | ⟨_, _, _, hkept⟩
        · cases hkept
        · exact absurd rfl hkept
    · rw [hf] at hcalls
      cases hcalls
      cases List.suffix_nil.mp hloop
  · obtain ⟨a, told⟩ := x
    cases Machine.step_own hst hother with
    | user hw hc hu huser => exact (hk.user_step hs hw hc hu huser).mono hle
    | @body w c rest _ hw hc hr =>
      have hover := hok hw
      rw [hc] at hover
      refine hk.body_step hs hw hc hr (hover c rfl) fun d hd => ⟨hle d hd, fun hpoll => ?_⟩
      have hne := (noteLoops_le hev hd).2 (Machine.event_poll hw hc hpoll)
      rwa [hc] at hne
    | @late _ _ _ _ _ hw hc _ _ =>
      intro calls pc below hcalls
      simp [Machine.proceed, Machine.setWorker] at hcalls
    | @epilogue w epc hw hc =>
      intro calls pc below hcalls
      cases epc with
      | returned =>
        rw [show rt.epilogue w i .returned = { rt with aborted := true } from rfl, hc] at hcalls
        cases hcalls
      | _ => simp [Machine.epilogue, Machine.setWorker] at hcalls
    | abort hw hc _ _ =>
      intro calls pc below hcalls
      rw [hc] at hcalls
      cases hcalls

/-! ## The next poll -/

/-- The steps to the next poll, at most. -/
def WaitPc.distance (spinCount : Nat) : WaitPc → Nat
  | .callPoll => 1
  | .store => 2
  | .load => 3
  | .cas => 4
  | .penalize _ _ => 5
  | .spin k cs _ => 6 + (cs - k)
  | .pending => 7 + spinCount
  | _ => 0

omit [NeZero n] in
/-- A loop that has been woken comes nearer to its next poll. -/
theorem WaitPc.run_nearer {self : Nat} {sh : Shared n} {pc : WaitPc} (hloops : pc.loops)
    (hk : (sh.ctx self).state = .notified ∨ pc.beforePoll) :
    ∃ pc' sh', pc.run self sh = some (.goto [.wait pc'] sh') ∧
      ((Call.wait pc').isPoll ∨ pc'.loops ∧ ((sh'.ctx self).state = .notified ∨ pc'.beforePoll) ∧
        pc'.distance (sh'.ctx self).adaptiveSpinCount <
          pc.distance (sh.ctx self).adaptiveSpinCount) := by
  have hword (hpc : pc.beforePoll = false) : (sh.ctx self).state = .notified :=
    hk.resolve_right (hpc ▸ Bool.false_ne_true)
  cases pc with
  | load =>
    simp only [WaitPc.run]
    split
    · exact ⟨_, _, rfl, .inr ⟨rfl, .inr rfl, by simp [distance]⟩⟩
    · exact ⟨_, _, rfl, .inr ⟨rfl, .inr rfl, by simp [distance]⟩⟩
  | store => exact ⟨_, _, rfl, .inr ⟨rfl, .inr rfl, by simp [distance]⟩⟩
  | callPoll => exact ⟨_, _, rfl, .inl rfl⟩
  | pending =>
    refine ⟨_, _, rfl, .inr ?_⟩
    split
    · exact ⟨rfl, .inl (hword rfl), by simp only [distance]; omega⟩
    · exact ⟨rfl, .inl (hword rfl), by simp only [distance]; omega⟩
  | spin k cs fc =>
    simp only [WaitPc.run]
    split
    · split
      · exact ⟨_, _, rfl, .inl rfl⟩
      · exact ⟨_, _, rfl, .inr ⟨rfl, .inl (hword rfl), by simp only [distance]; omega⟩⟩
    · exact ⟨_, _, rfl, .inr ⟨rfl, .inl (hword rfl), by simp only [distance]; omega⟩⟩
  | penalize cs fc =>
    refine ⟨_, _, rfl, .inr ⟨rfl, .inl ?_, by simp [distance]⟩⟩
    exact (sh.setSpin_state self self _ _).trans (hword rfl)
  | cas =>
    have hne : (sh.ctx self).state ≠ .running := by
      rw [hword rfl]
      decide
    simp only [WaitPc.run, if_neg hne]
    exact ⟨_, _, rfl, .inr ⟨rfl, .inl (hword rfl), by simp [distance]⟩⟩
  | _ => cases hloops

/-- The steps of a fiber in a loop that has been woken lead to its next poll. -/
theorem Machine.next_poll {w : Fin n} {pc : WaitPc} {below : List Call}
    (hw : rt.workers w = .on .running i) (hlive : rt.aborted = false)
    (hc : rt.shared.fibers i = .body (.wait pc :: below)) (hloops : pc.loops)
    (hk : (rt.shared.ctx i).state = .notified ∨ pc.beforePoll) :
    ∃ (k : Nat) (rt' : Machine n cap hosts) (pc' : WaitPc),
      exec Machine.step (.replicate k (.run (.fiber w))) rt = some rt' ∧
      rt'.shared.fibers i = .body (.wait pc' :: below) ∧ (Call.wait pc').isPoll := by
  -- by induction on the steps to the next poll
  generalize hd : pc.distance (rt.shared.ctx i).adaptiveSpinCount = d
  induction d using Nat.strong_induction_on generalizing rt pc with
  | _ d ih =>
    subst hd
    obtain ⟨pc', sh', hr, hnear⟩ := WaitPc.run_nearer hloops hk
    have hstep := Machine.step_body hlive hw hc hr
    generalize hrt : rt.proceed w i (.body ((Next.goto [.wait pc'] sh').calls below))
      (.goto [.wait pc'] sh') = rt₁ at hstep
    have hc₁ : rt₁.shared.fibers i = .body (.wait pc' :: below) := by
      subst hrt
      simp [Machine.proceed, Machine.setWorker, Next.calls]
    rcases hnear with hpoll | ⟨hloops', hk', hlt⟩
    · exact ⟨1, rt₁, pc', by simp [exec, hstep], hc₁, hpoll⟩
    · have hctx : rt₁.shared.ctx = sh'.ctx := by
        subst hrt
        rfl
      have hw₁ : rt₁.workers w = .on .running i := by
        subst hrt
        simp [Machine.proceed, Machine.setWorker, Next.stage]
      have hlive₁ : rt₁.aborted = false := by
        subst hrt
        exact hlive
      obtain ⟨k, rt', pc'', hexec, hend⟩ :=
        ih _ hlt hw₁ hlive₁ hc₁ hloops' (by rwa [hctx]) (by rw [hctx])
      refine ⟨k + 1, rt', pc'', ?_, hend⟩
      rw [List.replicate_succ, exec, hstep]
      exact hexec

theorem LoopsKept.pollsAgain (hk : LoopsKept i rt woken) : PollsAgain i rt woken := by
  intro pc below hc hw
  have hkept := hk _ pc below hc (List.suffix_refl _) hw
  have hword : (rt.shared.ctx i).state ≠ .yielded ∧ (rt.shared.ctx i).state ≠ .suspending := by
    rcases hkept with h | ⟨_, _, h⟩
    · simp [h]
    · exact h
  refine ⟨hword.1, hword.2, fun w hon hlive hloops => ?_⟩
  exact Machine.next_poll hon hlive hc hloops (hkept.imp_right fun h => h.2.1)

/-- In every run in which no call inside a poll overwrites the state word while the loop
around it has been woken, a loop that has been woken since its latest poll began is not
suspended when it is on the top of the stack, and the steps of the fiber alone lead to its
next poll. -/
theorem nested_wait_polls_again {tr : List (Told n hosts)} (hrun : NestedRun i tr (rt, woken)) :
    PollsAgain i rt woken := by
  have hinv : rt.Sound ∧ LoopsKept i rt woken := by
    refine hrun.hist_invariant (I := fun rt woken => rt.Sound ∧ LoopsKept i rt woken) ?_
      (fun _ _ _ _ hi hok hst => ⟨hi.1.step hst, hi.2.step hi.1 hok hst⟩)
    rintro rt ⟨topology, rfl⟩
    exact ⟨Machine.sound_new topology, fun _ _ _ hc => by cases hc⟩
  exact hinv.2.pollsAgain

end

/-! ## Runs with one inner wait -/

def quietly (acts : List (Act 1 1)) : List (Told 1 1) := acts.map (·, fun _ => false)

/-- A host thread wakes the fiber for the loop at depth `d`. -/
def wakeFor (d : Nat) : List (Told 1 1) :=
  [(.user (.host 0) (.wake 0 none), fun _ => false), (.run (.host 0), (· = d))]

/-- In a poll, the fiber waits for another future and is parked. -/
def innerWait : List (Act 1 1) :=
  [[.user (.fiber 0) .wait], .replicate 2 (.run (.fiber 0)),
    [.user (.fiber 0) .pollPending, .run (.fiber 0)], Machine.spinInVain,
    .replicate 4 (.run (.fiber 0)), .replicate 2 (.settle 0)].flatten

/-- The inner loop is woken for its own future. The outer one is woken in the poll that
follows, in which the inner future is ready. Then the outer poll returns `Pending`. -/
def wakeInnerThenOuter : List (Told 1 1) :=
  [quietly (Machine.waitPending.take 9), quietly innerWait, wakeFor 1,
    quietly [.run (.host 0), .poll 0, .dispatch 0],
    quietly [.run (.fiber 0), .run (.fiber 0), .run (.fiber 0)],
    wakeFor 0,
    quietly [.user (.fiber 0) .pollReady, .run (.fiber 0), .user (.fiber 0) .pollPending]].flatten

theorem nested_wait_polls_again_inner :
    ∃ (tr : List (Told 1 1)) (rt rt' : Machine 1 1 1) (woken : Nat → Bool) (k : Nat) (pc : WaitPc),
      NestedRun (0 : Fin 1) tr (rt, woken) ∧ woken 0 ∧
      rt.shared.fibers 0 = .body [.wait .pending] ∧
      exec Machine.step (.replicate k (.run (.fiber 0))) rt = some rt' ∧
      rt'.shared.fibers 0 = .body [.wait pc] ∧ (Call.wait pc).isPoll := by
  obtain ⟨⟨rt, woken⟩, hrun, hwoken, hfiber, hworker, hlive⟩ : ∃ p, NestedRun (0 : Fin 1)
      wakeInnerThenOuter.reverse p ∧ p.2 0 = true ∧ p.1.shared.fibers 0 = .body [.wait .pending] ∧
      p.1.workers 0 = .on .running 0 ∧ p.1.aborted = false :=
    Run.exists_of_guarded wakeInnerThenOuter (.new 1 1 1 .p2pMesh, fun _ => false)
      ⟨⟨.p2pMesh, rfl⟩, rfl⟩ (by decide +kernel)
  obtain ⟨-, -, hpolls⟩ := nested_wait_polls_again hrun .pending [] hfiber hwoken
  obtain ⟨k, rt', pc, hexec', hfiber', hpoll⟩ := hpolls 0 hworker hlive rfl
  exact ⟨_, rt, rt', woken, k, pc, hrun, hwoken, hfiber, hexec', hfiber', hpoll⟩

/-- The fiber goes through the spin window up to its last poll. -/
def spinToLast : List (Act 1 1) :=
  (List.range 50).flatMap fun k =>
    if k % 8 = 0 then [.run (.fiber 0), .user (.fiber 0) .pollPending] else [.run (.fiber 0)]

/-- In the last poll of the spin window the fiber waits for another future, and the outer
loop is woken. The inner future is ready at once, and the outer poll returns `Pending`. -/
def wakeOuterInInner : List (Told 1 1) :=
  [quietly Machine.waitPending, quietly spinToLast, quietly [.user (.fiber 0) .wait], wakeFor 0,
    quietly (.replicate 3 (.run (.fiber 0))),
    quietly [.user (.fiber 0) .pollReady, .run (.fiber 0), .user (.fiber 0) .pollPending],
    quietly (.replicate 4 (.run (.fiber 0))), quietly (.replicate 2 (.settle 0))].flatten

/-- The inner loop stores `Running` over the wake of the outer one. The fiber is parked,
though the outer loop has been woken since its latest poll began. -/
theorem inner_wait_swallows_wake :
    ∃ (tr : List (Told 1 1)) (rt : Machine 1 1 1) (woken : Nat → Bool),
      Run (initHist Machine.Initial fun _ => false) (withHist toldStep (noteLoops 0)) Free tr
        (rt, woken) ∧
      woken 0 ∧ rt.shared.fibers 0 = .body [.wait .load] ∧
      (rt.shared.ctx 0).state = .yielded ∧ ¬ PollsAgain 0 rt woken := by
  obtain ⟨⟨rt, woken⟩, hrun, hwoken, hfiber, hparked⟩ : ∃ p, Run
      (initHist Machine.Initial fun _ => false) (withHist toldStep (noteLoops 0)) Free
      wakeOuterInInner.reverse p ∧ p.2 0 = true ∧ p.1.shared.fibers 0 = .body [.wait .load] ∧
      (p.1.shared.ctx 0).state = .yielded :=
    Run.exists_of_exec wakeOuterInInner (.new 1 1 1 .p2pMesh, fun _ => false) ⟨⟨.p2pMesh, rfl⟩, rfl⟩
      (by decide +kernel)
  refine ⟨_, rt, woken, hrun, hwoken, hfiber, hparked, ?_⟩
  intro hpolls
  exact (hpolls .load [] hfiber hwoken).1 hparked

end Dtact.Runtime
