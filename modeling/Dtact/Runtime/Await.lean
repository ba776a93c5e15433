import Dtact.Runtime.Stacks

/-!
# `dtact_await` does not return early

A handle names a context and 15 bits of its generation. `dtact_await` compares the generation with
the one in the context and looks at the state word, in separate loads; a fiber does so twice around
its registration as the waiter, a host thread again and again.
-/

namespace Dtact.Runtime

open Scheduler Transition

/-! ## Handles -/

/-- The handle an entry point returns. `spawn_with_stack` leaves the generation out. -/
def Launch.handle (l : Launch) (core i generation : Nat) : Nat :=
  match l with
  | .withStack => i ||| (core <<< 32) % 2 ^ 64
  | _ => i ||| (core <<< 32) % 2 ^ 64 ||| (generation % 2 ^ 15) <<< 48 ||| 2 ^ 63

/-- `target_ctx_id` of `dtact_await` -/
def handleTarget (handle : Nat) : Nat := handle % 2 ^ 63 % 2 ^ 32

/-- `handle_gen` of `dtact_await` -/
def handleGen (handle : Nat) : Nat := handle % 2 ^ 63 / 2 ^ 48 % 2 ^ 15

theorem handleGen_handle {l : Launch} {core i generation : Nat} (hl : l ≠ .withStack)
    (hi : i < 2 ^ 32) (hcore : core < 2 ^ 16) :
    handleGen (l.handle core i generation) = generation % 2 ^ 15 := by
  have hgen : generation % 2 ^ 15 < 2 ^ 15 := Nat.mod_lt _ (by decide)
  have heq : l.handle core i generation =
      2 ^ 63 + (2 ^ 48 * (generation % 2 ^ 15) + (2 ^ 32 * core + i)) := by
    have hshift : (core <<< 32) % 2 ^ 64 = 2 ^ 32 * core := by
      rw [Nat.shiftLeft_eq, Nat.mod_eq_of_lt (by omega), Nat.mul_comm]
    have hunfold : l.handle core i generation =
        i ||| (core <<< 32) % 2 ^ 64 ||| (generation % 2 ^ 15) <<< 48 ||| 2 ^ 63 := by
      cases l <;> first | rfl | exact absurd rfl hl
    rw [hunfold, hshift, Nat.or_comm i, ← Nat.two_pow_add_eq_or_of_lt hi, Nat.or_comm _ (_ <<< 48),
      Nat.shiftLeft_eq, Nat.mul_comm _ (2 ^ 48), ← Nat.two_pow_add_eq_or_of_lt (by omega),
      Nat.or_comm _ (2 ^ 63)]
    have hsum := Nat.two_pow_add_eq_or_of_lt (i := 63)
      (b := 2 ^ 48 * (generation % 2 ^ 15) + (2 ^ 32 * core + i)) (by omega) 1
    rw [Nat.mul_one] at hsum
    exact hsum.symm
  rw [handleGen, heq]
  omega

/-! ## Host threads -/

/-- Where a host thread is in the loop of `dtact_await`. -/
inductive HostAwaitPc
  | idle
  | loadGen (target gen : Nat)
  | loadState (target gen g₁ : Nat)
  | loadGenAgain (target gen g₁ : Nat) (status : FiberStatus)
deriving DecidableEq

/-- The next load of a host thread in `dtact_await`; `idle` when the call returns. -/
def HostAwaitPc.run {n : Nat} (sh : Shared n) : HostAwaitPc → Option HostAwaitPc
  | .idle => none
  | .loadGen target gen => some (.loadState target gen (generation15 (sh.ctx target)))
  | .loadState target gen g₁ => some (.loadGenAgain target gen g₁ (sh.ctx target).state)
  | .loadGenAgain target gen g₁ status =>
    let g₂ := generation15 (sh.ctx target)
    if g₁ ≠ gen ∨ g₂ ≠ gen then some .idle
    else if status = .finished then some .idle
    else some (.loadGen target gen)

/-- The context and the generation the call was made for. -/
def HostAwaitPc.call : HostAwaitPc → Option (Nat × Nat)
  | .idle => none
  | .loadGen target gen | .loadState target gen _ | .loadGenAgain target gen _ _ =>
    some (target, gen)

/-- The runtime and the host threads in `dtact_await`. -/
structure Joining (n cap hosts : Nat) where
  rt : Machine n cap hosts
  awaiters : Nat → HostAwaitPc

inductive JoinAct (n hosts : Nat)
  | machine (a : Act n hosts)
  | await (k handle : Nat)
  | look (k : Nat)

section

variable {n cap hosts : Nat}

def Joining.setAwaiter (s : Joining n cap hosts) (k : Nat) (pc : HostAwaitPc) :
    Joining n cap hosts :=
  { s with awaiters := Function.update s.awaiters k pc }

def joinStep [NeZero n] : JoinAct n hosts → Joining n cap hosts → Option (Joining n cap hosts)
  | .machine a, s => (Machine.step a s.rt).map fun rt => { s with rt }
  | .await k handle, s =>
    if s.awaiters k = .idle then
      some (s.setAwaiter k (.loadGen (handleTarget handle) (handleGen handle)))
    else none
  | .look k, s => ((s.awaiters k).run s.rt.shared).map (s.setAwaiter k)

def Joining.Initial [NeZero n] (s : Joining n cap hosts) : Prop :=
  Machine.Initial s.rt ∧ s.awaiters = fun _ => .idle

/-! ## What happens to a context -/

/-- A fiber was started with this entry point and handle. -/
structure Spawned where
  launch : Launch
  handle : Nat
deriving DecidableEq

/-- A call of `dtact_await` has returned: it was made when `asked` fibers had been
started in the context, and it returned when `finished` had stored `Finished`. -/
structure Return where
  gen : Nat
  asked : Nat
  finished : List Nat
deriving DecidableEq

/-- The fibers of one context, numbered in the order of their start, and the calls of
`dtact_await` on it. -/
structure JoinHist where
  spawned : List Spawned
  finished : List Nat
  /-- By the fiber that is in the call. -/
  asked : Nat → Nat
  /-- By the host thread that is in the call. -/
  hostAsked : Nat → Nat
  returned : List Return

def JoinHist.empty : JoinHist := ⟨[], [], fun _ => 0, fun _ => 0, []⟩

namespace Machine

/-- The action starts a fiber in the context `i`. -/
def spawnedIn (rt : Machine n cap hosts) (i : Nat) : Act n hosts → Option Spawned
  | .run t =>
    match rt.nextCall t with
    | some (.spawn l core (.init j)) =>
      if j = i then
        some ⟨l, l.handle (l.core (current t) core) i (rt.shared.ctx i).generation⟩
      else none
    | _ => none
  | _ => none

/-- The fiber that calls `dtact_await`. -/
def awaitCalled (rt : Machine n cap hosts) : Act n hosts → Option (Fin cap)
  | .user (.fiber w) (.await _ _) =>
    match rt.workers w with
    | .on .running j => some j
    | _ => none
  | _ => none

/-- The fiber whose `dtact_await` returns, with the arguments of the call. -/
def awaitReturned (rt : Machine n cap hosts) : Act n hosts → Option (Fin cap × Nat × Nat)
  | .run (.fiber w) =>
    match rt.workers w with
    | .on .running j =>
      match (rt.shared.fibers j).calls.head? with
      | some (.await target gen pc) =>
        if (pc.run j (.worker w) target gen rt.shared).own = [] then some (j, target, gen) else none
      | _ => none
    | _ => none
  | _ => none

end Machine

/-- A call on the context `i` returns. -/
def JoinHist.note (h : JoinHist) (i asked target gen : Nat) : JoinHist :=
  if target = i then { h with returned := ⟨gen, asked, h.finished⟩ :: h.returned } else h

def joinMachine (i : Fin cap) (a : Act n hosts) (rt : Machine n cap hosts) (h : JoinHist) :
    JoinHist :=
  let h' := match rt.awaitReturned a with
    | some (j, target, gen) => h.note i (h.asked j) target gen
    | none => h
  { h' with
    spawned := h.spawned ++ (rt.spawnedIn i a).toList
    finished :=
      if rt.event i a = some .finish then (h.spawned.length - 1) :: h.finished else h.finished
    asked :=
      match rt.awaitCalled a with
      | some j => Function.update h.asked j h.spawned.length
      | none => h.asked }

def joinUpd (i : Fin cap) (a : JoinAct n hosts) (s : Joining n cap hosts) (h : JoinHist) :
    JoinHist :=
  match a with
  | .machine a => joinMachine i a s.rt h
  | .await k _ => { h with hostAsked := Function.update h.hostAsked k h.spawned.length }
  | .look k =>
    match (s.awaiters k).call with
    | some (target, gen) =>
      if (s.awaiters k).run s.rt.shared = some .idle then h.note i (h.hostAsked k) target gen
      else h
    | none => h

end

/-! ## The property -/

/-- The fiber is the one a call with this generation was made for. `spawn_with_stack`
returns no handle for `dtact_await`. -/
def Spawned.Named (i gen : Nat) (sp : Spawned) : Prop :=
  sp.launch ≠ .withStack ∧ handleTarget sp.handle = i ∧ handleGen sp.handle = gen

/-- Every fiber that a call has been asked for has stored `Finished`. -/
def JoinHist.Done (h : JoinHist) (i asked gen : Nat) (finished : List Nat) : Prop :=
  ∀ k < asked, ∀ sp, h.spawned[k]? = some sp → sp.Named i gen → k ∈ finished

def JoinHist.NotEarly (h : JoinHist) (i : Nat) : Prop :=
  ∀ r ∈ h.returned, h.Done i r.asked r.gen r.finished

/-- `core_id` is a `u16`. -/
def Call.CoreId : Call → Prop
  | .spawn _ core _ => core < 2 ^ 16
  | _ => True

instance : (c : Call) → Decidable c.CoreId
  | .spawn _ _ _ => inferInstanceAs (Decidable (_ < _))
  | .wait _ | .wake _ _ | .wakeFiber .. | .yieldTo _ | .await .. => inferInstanceAs (Decidable True)

def CoreId {n cap hosts : Nat} (s : Joining n cap hosts) : JoinAct n hosts → Prop
  | .machine (.run t) => ∀ c ∈ s.rt.nextCall t, c.CoreId
  | _ => True

instance {n cap hosts : Nat} (s : Joining n cap hosts) (a : JoinAct n hosts) :
    Decidable (CoreId s a) :=
  match a with
  | .machine (.run t) => inferInstanceAs (Decidable (∀ c ∈ s.rt.nextCall t, c.CoreId))
  | .machine (.user ..) | .machine (.dispatch _) | .machine (.settle _) | .machine (.poll _)
  | .machine (.drain _) | .await .. | .look _ => inferInstanceAs (Decidable True)

abbrev JoinRun {n cap hosts : Nat} [NeZero n] (i : Fin cap) :
    List (JoinAct n hosts) → Joining n cap hosts × JoinHist → Prop :=
  Run (initHist Joining.Initial .empty) (withHist joinStep (joinUpd i)) fun p a => CoreId p.1 a

/-! ## The invariant -/

/-- The fiber has seen that its target is gone. -/
def AwaitPc.SawEnd (gen : Nat) : AwaitPc → Prop
  | .loadState g | .recheckState g => g ≠ gen
  | .unregister => True
  | _ => False

/-- The host thread has seen that its target is gone. -/
def HostAwaitPc.SawEnd (gen : Nat) : HostAwaitPc → Prop
  | .loadState _ _ g₁ => g₁ ≠ gen
  | .loadGenAgain _ _ g₁ status => g₁ ≠ gen ∨ status = .finished
  | _ => False

section

variable {n cap hosts : Nat} {i : Fin cap}

/-- The history follows the occupants of the context. -/
structure Tracks (i : Fin cap) (rt : Machine n cap hosts) (h : JoinHist) : Prop where
  /-- All but the last fiber have stored `Finished`. -/
  ended : ∀ k < h.spawned.length,
    k ∈ h.finished ∨ k + 1 = h.spawned.length ∧ (rt.shared.fibers i).unfinished
  /-- The generation is the one of the fiber that has not. -/
  gen : (rt.shared.fibers i).unfinished → ∀ sp, h.spawned.getLast? = some sp →
    sp.launch ≠ .withStack → handleGen sp.handle = generation15 (rt.shared.ctx i)

structure JoinInv (i : Fin cap) (s : Joining n cap hosts) (h : JoinHist) : Prop where
  sound : s.rt.Sound
  nested : ∀ j : Fin cap, Nested (s.rt.shared.fibers j).calls
  tracks : Tracks i s.rt h
  asked_le : ∀ j, h.asked j ≤ h.spawned.length
  hostAsked_le : ∀ k, h.hostAsked k ≤ h.spawned.length
  returned_le : ∀ r ∈ h.returned, r.asked ≤ h.spawned.length
  seen : ∀ j gen pc, s.rt.Awaits j i gen pc → pc.SawEnd gen →
    h.Done i (h.asked j) gen h.finished
  hostSeen : ∀ k gen, (s.awaiters k).call = some (i.val, gen) → (s.awaiters k).SawEnd gen →
    h.Done i (h.hostAsked k) gen h.finished
  notEarly : h.NotEarly i

variable {s : Joining n cap hosts} {h : JoinHist} {asked gen : Nat} {j : Fin cap}
  {rt rt' : Machine n cap hosts} {a : Act n hosts}

/-- A target with another generation, or one that is finished or freed, is done. -/
theorem JoinInv.done (hi : JoinInv i s h) (hle : asked ≤ h.spawned.length)
    (hend : generation15 (s.rt.shared.ctx i) ≠ gen ∨ (s.rt.shared.ctx i).state = .finished ∨
      (s.rt.shared.ctx i).state = .initial) : h.Done i asked gen h.finished := by
  intro k hk sp hsp hnamed
  refine (hi.tracks.ended k (hk.trans_le hle)).resolve_right ?_
  rintro ⟨hlast, hu⟩
  have hsp : h.spawned.getLast? = some sp := by
    rw [List.getLast?_eq_getElem?, ← hlast]
    exact hsp
  have hgen := hi.tracks.gen hu sp hsp hnamed.1
  rcases hend with hne | hstate
  · exact hne (hgen.symm.trans hnamed.2.2)
  · have halive := hi.sound.alive hu
    rcases hstate with hstate | hstate <;> rw [hstate] at halive <;>
      rcases halive with (halive | halive | halive) | halive <;> cases halive

structure JoinHist.Grows (h h' : JoinHist) : Prop where
  spawned : ∃ rest, h'.spawned = h.spawned ++ rest
  finished : h.finished ⊆ h'.finished

theorem JoinHist.Done.grow {h' : JoinHist} {finished finished' : List Nat}
    (hd : h.Done i asked gen finished) (hg : h.Grows h') (hle : asked ≤ h.spawned.length)
    (hf : finished ⊆ finished') : h'.Done i asked gen finished' := by
  intro k hk sp hsp hnamed
  obtain ⟨rest, hrest⟩ := hg.spawned
  rw [hrest, List.getElem?_append_left (hk.trans_le hle)] at hsp
  exact hf (hd k hk sp hsp hnamed)

/-! ### A fiber in `dtact_await` -/

theorem targetGone_cases {g : Nat} {state : FiberStatus} (h : targetGone gen g state) :
    g ≠ gen ∨ state = .finished ∨ state = .initial := by
  simpa [targetGone, or_assoc] using h

/-- A load that sees the end of the target is right. -/
theorem JoinInv.sawEnd (hi : JoinInv i s h) {w : Fin n} {pc pc' : AwaitPc}
    (ha : s.rt.Awaits j i gen pc)
    (hown : (pc.run j (.worker w) i gen s.rt.shared).own = [.await i gen pc'])
    (hsaw : pc'.SawEnd gen) : h.Done i (h.asked j) gen h.finished := by
  have hdone (hend : generation15 (s.rt.shared.ctx i) ≠ gen ∨ _) :
      h.Done i (h.asked j) gen h.finished := hi.done (hi.asked_le j) hend
  cases pc with
  | loadGen | recheckGen =>
    cases hown
    exact hdone (.inl hsaw)
  | recheckState g =>
    simp only [AwaitPc.run] at hown
    split at hown
    · next hgone =>
      rcases targetGone_cases hgone with hne | hstate
      · exact hi.seen j gen _ ha hne
      · exact hdone (.inr hstate)
    · cases hown
      cases hsaw
  | loadState g =>
    simp only [AwaitPc.run] at hown
    split at hown <;> cases hown
    cases hsaw
  | cas =>
    simp only [AwaitPc.run] at hown
    split at hown <;> (cases hown; cases hsaw)
  | unregister =>
    simp only [AwaitPc.run] at hown
    split at hown <;> cases hown
  | swap | register | switch =>
    cases hown
    cases hsaw

/-- When the call returns, the target is done. -/
theorem JoinInv.returns (hi : JoinInv i s h) {w : Fin n} {pc : AwaitPc}
    (ha : s.rt.Awaits j i gen pc) (hown : (pc.run j (.worker w) i gen s.rt.shared).own = []) :
    h.Done i (h.asked j) gen h.finished := by
  cases pc with
  | loadState g =>
    simp only [AwaitPc.run] at hown
    split at hown
    · next hgone =>
      rcases targetGone_cases hgone with hne | hstate
      · exact hi.seen j gen _ ha hne
      · exact hi.done (hi.asked_le j) (.inr hstate)
    · cases hown
  | unregister => exact hi.seen j gen _ ha trivial
  | recheckState g | cas =>
    simp only [AwaitPc.run] at hown
    split at hown <;> cases hown
  | swap | loadGen | register | recheckGen | switch => cases hown

/-! ### A step of the runtime -/

theorem Launch.init_generation (l : Launch) (topology : TopologyMode) (core : Nat)
    (c : FiberContext) : (l.init topology core c).generation = c.generation := by
  cases l <;> rfl

theorem Launch.core_lt {l : Launch} {current : Caller n} {core : Nat} (hn : n ≤ 2 ^ 16)
    (hcore : core < 2 ^ 16) : l.core current core < 2 ^ 16 := by
  cases l with
  | builder _ _ _ _ =>
    cases current with
    | worker w => exact w.isLt.trans_le hn
    | host => exact (Nat.mod_le _ _).trans_lt hcore
  | _ => exact hcore

theorem Machine.spawnedIn_none (h : ¬ rt.Starts a i) : rt.spawnedIn i a = none := by
  unfold Machine.spawnedIn
  split
  · next t =>
    split
    · next l core j hc =>
      rw [if_neg]
      rintro rfl
      exact h ⟨t, _, rfl, hc, by simp [Call.spawns]⟩
    · rfl
  · rfl

theorem Machine.spawnedIn_start {t : Thread n hosts} {l : Launch} {core : Nat}
    (h : rt.nextCall t = some (.spawn l core (.init i))) :
    rt.spawnedIn i (.run t) =
      some ⟨l, l.handle (l.core (Machine.current t) core) i (rt.shared.ctx i).generation⟩ := by
  simp [Machine.spawnedIn, h]

/-- Only `free_context` changes the generation. -/
theorem Machine.step_generation [NeZero n] (hst : Machine.step a rt = some rt')
    (hfree : ∀ w, rt.workers w ≠ .on .freeGen i) :
    (rt'.shared.ctx i).generation = (rt.shared.ctx i).generation := by
  have hctx := Machine.step_context hst i.val
  generalize rt'.shared.ctx i = x at hctx ⊢
  cases hctx with
  | keep _ hk | handle _ _ hk => exact hk.generation
  | start _ => exact Launch.init_generation ..
  | waiter _ _ _ => rfl
  | @freeGen w k hw hk =>
    obtain rfl : k = i := Fin.ext hk
    exact absurd hw (hfree w)

theorem Tracks.step [NeZero n] (hn : n ≤ 2 ^ 16) (hcap : cap ≤ 2 ^ 32) (ht : Tracks i rt h)
    (hs : rt.Sound) (hok : ∀ t, a = .run t → ∀ c ∈ rt.nextCall t, c.CoreId)
    (hst : Machine.step a rt = some rt') : Tracks i rt' (joinMachine i a rt h) := by
  have hocc := hs.occupancy hst i
  have hended := ht.ended
  have hlast := ht.gen
  have hfree (hu : (rt.shared.fibers i).unfinished) (w : Fin n) :
      rt.workers w ≠ .on .freeGen i := by
    intro hw
    cases (Control.not_gone hu).symm.trans (hs.freeing hw (.inr (.inl rfl)))
  generalize hu : (rt.shared.fibers i).unfinished = u at hocc hended hlast hfree
  generalize hu' : (rt'.shared.fibers i).unfinished = u' at hocc
  cases hocc with
  | start hstart hev =>
    obtain ⟨t, c, rfl, hc, hmem⟩ := hstart
    have hexec := Machine.not_executing (hs.claims i) hc hmem
    obtain ⟨l, core, rfl⟩ := Call.mem_spawns hmem
    have hcore : core < 2 ^ 16 := hok t rfl _ hc
    refine ⟨fun k hk => ?_, fun _ sp hsp hl => ?_⟩
    · simp only [joinMachine, Machine.spawnedIn_start hc, Option.toList_some, List.length_append,
        List.length_singleton, hev] at hk ⊢
      rcases Nat.lt_succ_iff_lt_or_eq.mp hk with hk | rfl
      · exact .inl ((hended k hk).resolve_right (by simp))
      · exact .inr ⟨rfl, hu'⟩
    · simp only [joinMachine, Machine.spawnedIn_start hc, Option.toList_some,
        List.getLast?_concat, Option.some.injEq] at hsp
      subst hsp
      rw [generation15, Machine.step_generation hst fun w => hexec w .freeGen]
      exact handleGen_handle hl (i.isLt.trans_le hcap) (Launch.core_lt hn hcore)
  | finish hns hev =>
    refine ⟨fun k hk => .inl ?_, fun hu => ?_⟩
    · simp only [joinMachine, Machine.spawnedIn_none hns, Option.toList_none, List.append_nil, hev,
        if_true] at hk ⊢
      rcases hended k hk with hk | ⟨hk, -⟩
      · exact .tail _ hk
      · rw [← hk, Nat.add_sub_cancel]
        exact .head _
    · cases hu'.symm.trans hu
  | same hns hev =>
    refine ⟨?_, fun hu sp hsp hl => ?_⟩
    · simp only [joinMachine, Machine.spawnedIn_none hns, Option.toList_none, List.append_nil,
        if_neg hev, hu']
      exact hended
    · simp only [joinMachine, Machine.spawnedIn_none hns, Option.toList_none,
        List.append_nil] at hsp
      have hu : u = true := hu'.symm.trans hu
      rw [generation15, Machine.step_generation hst (hfree hu)]
      exact hlast hu sp hsp hl

theorem Machine.awaitCalled_eq (h : rt.awaitCalled a = some j) :
    ∃ w target gen, a = .user (.fiber w) (.await target gen) ∧ rt.workers w = .on .running j := by
  unfold Machine.awaitCalled at h
  split at h
  · next w target gen =>
    split at h
    · next hw =>
      cases h
      exact ⟨w, target, gen, rfl, hw⟩
    · cases h
  · cases h

theorem Machine.awaitReturned_eq {target : Nat} (h : rt.awaitReturned a = some (j, target, gen)) :
    ∃ w pc, a = .run (.fiber w) ∧ rt.Awaits j target gen pc ∧
      (pc.run j (.worker w) target gen rt.shared).own = [] := by
  unfold Machine.awaitReturned at h
  split at h
  · next w =>
    split at h
    · next hw =>
      split at h
      · next hc =>
        split at h
        · next hown =>
          cases h
          exact ⟨w, _, rfl, hc, hown⟩
        · cases h
      · cases h
    · cases h
  · cases h

theorem joinMachine_asked (hj : rt.awaitCalled a ≠ some j) :
    (joinMachine i a rt h).asked j = h.asked j := by
  simp only [joinMachine]
  cases hk : rt.awaitCalled a with
  | none => rfl
  | some k =>
    refine Function.update_of_ne (fun heq => hj ?_) _ _
    rw [hk, Fin.ext heq]

theorem joinMachine_hostAsked (rt : Machine n cap hosts) (a : Act n hosts) (h : JoinHist) :
    (joinMachine i a rt h).hostAsked = h.hostAsked := by
  unfold joinMachine JoinHist.note
  dsimp only
  split
  · split <;> rfl
  · rfl

theorem joinMachine_grows (rt : Machine n cap hosts) (a : Act n hosts) (h : JoinHist) :
    h.Grows (joinMachine i a rt h) := by
  refine ⟨⟨_, rfl⟩, ?_⟩
  simp only [joinMachine]
  split
  · exact List.subset_cons_self ..
  · exact List.Subset.refl _

theorem JoinHist.Grows.length_le {h' : JoinHist} (hg : h.Grows h') :
    h.spawned.length ≤ h'.spawned.length := by
  obtain ⟨rest, hrest⟩ := hg.spawned
  rw [hrest, List.length_append]
  exact Nat.le_add_right ..

theorem joinMachine_returned {r : Return} (hr : r ∈ (joinMachine i a rt h).returned) :
    r ∈ h.returned ∨ ∃ j, rt.awaitReturned a = some (j, i.val, r.gen) ∧ r.asked = h.asked j ∧
      r.finished = h.finished := by
  unfold joinMachine at hr
  dsimp only at hr
  split at hr
  · next j target gen heq =>
    unfold JoinHist.note at hr
    split at hr
    · next htarget =>
      rcases List.mem_cons.mp hr with rfl | hr
      · exact .inr ⟨j, by rw [heq, htarget], rfl, rfl⟩
      · exact .inl hr
    · exact .inl hr
  · exact .inl hr

theorem JoinInv.machine [NeZero n] (hn : n ≤ 2 ^ 16) (hcap : cap ≤ 2 ^ 32) (hi : JoinInv i s h)
    (hok : CoreId s (.machine a)) (hst : Machine.step a s.rt = some rt') :
    JoinInv i { s with rt := rt' } (joinMachine i a s.rt h) := by
  have hgrows := joinMachine_grows (i := i) s.rt a h
  have hlen := hgrows.length_le
  refine ⟨hi.sound.step hst, fun j => hi.sound.nested_step hst (hi.nested j),
    hi.tracks.step hn hcap hi.sound ?_ hst, fun j => ?_, fun k => ?_, fun r hr => ?_,
    fun j gen pc ha hsaw => ?_, fun k gen hk hsaw => ?_, fun r hr => ?_⟩
  · rintro t rfl
    exact hok
  · refine Nat.le_trans ?_ hlen
    simp only [joinMachine]
    cases s.rt.awaitCalled a with
    | none => exact hi.asked_le j
    | some k =>
      simp only [Function.update_apply]
      split
      · exact Nat.le_refl _
      · exact hi.asked_le j
  · rw [joinMachine_hostAsked]
    exact (hi.hostAsked_le k).trans hlen
  · rcases joinMachine_returned hr with hr | ⟨j, -, hasked, -⟩
    · exact (hi.returned_le r hr).trans hlen
    · rw [hasked]
      exact (hi.asked_le j).trans hlen
  · -- The fiber sees no more than before, or it has just looked.
    have hstep := Machine.step_awaits hst (hi.nested j) ha
    have hasked : s.rt.awaitCalled a ≠ some j → h.Done i (h.asked j) gen h.finished →
        (joinMachine i a s.rt h).Done i ((joinMachine i a s.rt h).asked j) gen
          (joinMachine i a s.rt h).finished := by
      intro hcalled hdone
      rw [joinMachine_asked hcalled]
      exact hdone.grow hgrows (hi.asked_le j) hgrows.finished
    cases hstep with
    | stay hawait hother =>
      refine hasked (fun hcalled => ?_) (hi.seen j gen pc hawait hsaw)
      obtain ⟨w, target, gen', rfl, hw⟩ := Machine.awaitCalled_eq hcalled
      exact (hother w j hw rfl).2 _ rfl
    | enter => cases hsaw
    | run hw hrun hawait hown =>
      subst hrun
      exact hasked nofun (hi.sawEnd hawait hown hsaw)
  · rw [joinMachine_hostAsked]
    exact (hi.hostSeen k gen hk hsaw).grow hgrows (hi.hostAsked_le k) hgrows.finished
  · rcases joinMachine_returned hr with hr | ⟨j, hret, hasked, hfin⟩
    · exact (hi.notEarly r hr).grow hgrows (hi.returned_le r hr) (List.Subset.refl _)
    · obtain ⟨w, pc, rfl, hawait, hown⟩ := Machine.awaitReturned_eq hret
      rw [hasked, hfin]
      exact (hi.returns hawait hown).grow hgrows (hi.asked_le j) (List.Subset.refl _)

/-! ### A step of a host thread -/

theorem HostAwaitPc.run_call {sh : Shared n} {pc pc' : HostAwaitPc} (h : pc.run sh = some pc') :
    pc' = .idle ∨ pc'.call = pc.call := by
  cases pc with
  | idle => cases h
  | loadGen target gen | loadState target gen g₁ =>
    cases h
    exact .inr rfl
  | loadGenAgain target gen g₁ status =>
    simp only [HostAwaitPc.run] at h
    split at h
    · cases h
      exact .inl rfl
    · split at h <;> cases h
      · exact .inl rfl
      · exact .inr rfl

/-- A load of a host thread that sees the end of the target is right. -/
theorem JoinInv.hostRun (hi : JoinInv i s h) {k : Nat} {pc' : HostAwaitPc}
    (hk : (s.awaiters k).call = some (i.val, gen))
    (hrun : (s.awaiters k).run s.rt.shared = some pc') (hsaw : pc' = .idle ∨ pc'.SawEnd gen) :
    h.Done i (h.hostAsked k) gen h.finished := by
  have hseen := hi.hostSeen k gen hk
  have hdone (hend : generation15 (s.rt.shared.ctx i) ≠ gen ∨ _) :
      h.Done i (h.hostAsked k) gen h.finished := hi.done (hi.hostAsked_le k) hend
  generalize s.awaiters k = pc at hk hrun hseen
  cases pc with
  | idle => cases hk
  | loadGen target gen' =>
    cases hk
    cases hrun
    exact hdone (.inl (hsaw.resolve_left nofun))
  | loadState target gen' g₁ =>
    cases hk
    cases hrun
    rcases hsaw.resolve_left nofun with hne | hstate
    · exact hseen hne
    · exact hdone (.inr (.inl hstate))
  | loadGenAgain target gen' g₁ status =>
    cases hk
    simp only [HostAwaitPc.run] at hrun
    split at hrun
    · next hgen =>
      rcases hgen with hne | hne
      · exact hseen (.inl hne)
      · exact hdone (.inl hne)
    · split at hrun
      · next hstatus => exact hseen (.inr hstatus)
      · cases hrun
        rcases hsaw with hsaw | hsaw <;> cases hsaw

theorem JoinInv.calls (hi : JoinInv i s h) {k : Nat} {pc : HostAwaitPc} {returned : List Return}
    (hle : asked ≤ h.spawned.length)
    (hpc : ∀ gen, pc.call = some (i.val, gen) → pc.SawEnd gen → h.Done i asked gen h.finished)
    (hret : ∀ r ∈ returned, r.asked ≤ h.spawned.length ∧ h.Done i r.asked r.gen r.finished) :
    JoinInv i (s.setAwaiter k pc)
      { h with hostAsked := Function.update h.hostAsked k asked, returned } := by
  refine ⟨hi.sound, hi.nested, ⟨hi.tracks.ended, hi.tracks.gen⟩, hi.asked_le, fun j => ?_,
    fun r hr => (hret r hr).1, hi.seen, fun j gen hj hsaw => ?_, fun r hr => (hret r hr).2⟩
  · simp only [Function.update_apply]
    split
    · exact hle
    · exact hi.hostAsked_le j
  · rcases eq_or_ne j k with rfl | hne
    · simp only [Joining.setAwaiter, Function.update_self] at hj hsaw ⊢
      exact hpc gen hj hsaw
    · simp only [Joining.setAwaiter, Function.update_of_ne hne] at hj hsaw ⊢
      exact hi.hostSeen j gen hj hsaw

theorem JoinInv.step [NeZero n] (hn : n ≤ 2 ^ 16) (hcap : cap ≤ 2 ^ 32) {s' : Joining n cap hosts}
    (hi : JoinInv i s h) {a : JoinAct n hosts} (hok : CoreId s a) (hst : joinStep a s = some s') :
    JoinInv i s' (joinUpd i a s h) := by
  have hreturned (r : Return) (hr : r ∈ h.returned) :
      r.asked ≤ h.spawned.length ∧ h.Done i r.asked r.gen r.finished :=
    ⟨hi.returned_le r hr, hi.notEarly r hr⟩
  cases a with
  | machine a =>
    obtain ⟨rt', hrt, rfl⟩ := Option.map_eq_some_iff.mp hst
    exact hi.machine hn hcap hok hrt
  | await k handle =>
    simp only [joinStep, Option.ite_none_right_eq_some, Option.some.injEq] at hst
    obtain ⟨-, rfl⟩ := hst
    exact hi.calls (Nat.le_refl _) (fun _ _ hsaw => by cases hsaw) hreturned
  | look k =>
    obtain ⟨pc', hrun, rfl⟩ := Option.map_eq_some_iff.mp hst
    have hsees (gen : Nat) (hcall : pc'.call = some (i.val, gen)) (hsaw : pc'.SawEnd gen) :
        h.Done i (h.hostAsked k) gen h.finished := by
      rcases HostAwaitPc.run_call hrun with rfl | heq
      · cases hcall
      · exact hi.hostRun (heq ▸ hcall) hrun (.inr hsaw)
    have hkeep {returned : List Return} (hret : ∀ r ∈ returned, r.asked ≤ h.spawned.length ∧
        h.Done i r.asked r.gen r.finished) :
        JoinInv i (s.setAwaiter k pc') { h with returned } := by
      have hcalls := hi.calls (k := k) (hi.hostAsked_le k) hsees hret
      rwa [Function.update_eq_self] at hcalls
    cases hcall : (s.awaiters k).call with
    | none => simpa only [joinUpd, hcall] using hkeep hreturned
    | some p =>
      obtain ⟨target, gen⟩ := p
      simp only [joinUpd, hcall]
      split
      · next hidle =>
        unfold JoinHist.note
        split
        · next htarget =>
          subst htarget
          refine hkeep ?_
          rintro r (_ | ⟨_, hr⟩)
          · exact ⟨hi.hostAsked_le k, hi.hostRun hcall hidle (.inl rfl)⟩
          · exact hreturned r hr
        · exact hkeep hreturned
      · exact hkeep hreturned

theorem joinInv_init [NeZero n] (hs : s.Initial) : JoinInv i s .empty := by
  obtain ⟨⟨topology, hrt⟩, hidle⟩ := hs
  have hfibers (j : Nat) : s.rt.shared.fibers j = .none := by
    rw [hrt]
    rfl
  refine ⟨hrt ▸ Machine.sound_new topology, fun j => ?_, ⟨nofun, fun hu => ?_⟩,
    fun _ => Nat.le_refl _, fun _ => Nat.le_refl _, nofun, fun j gen pc ha => ?_,
    fun k gen hk => ?_, nofun⟩
  · rw [hfibers]
    exact Nested.nil
  · rw [hfibers] at hu
    cases hu
  · rw [Machine.Awaits, hfibers] at ha
    cases ha
  · rw [hidle] at hk
    cases hk

/-! ## Calls return in time -/

/-- In every run with at most `2 ^ 16` workers, a call of `dtact_await` returns only
after every fiber it may have been asked for has stored `Finished`. -/
theorem await_not_early [NeZero n] (hn : n ≤ 2 ^ 16) (hcap : cap ≤ 2 ^ 32)
    {tr : List (JoinAct n hosts)} {s : Joining n cap hosts} {h : JoinHist}
    (hrun : JoinRun i tr (s, h)) : h.NotEarly i := by
  have hinv : JoinInv i s h :=
    hrun.hist_invariant (I := JoinInv i) (fun _ => joinInv_init)
      (fun _ _ _ _ hi hok hst => hi.step hn hcap hok hst)
  exact hinv.notEarly

end

def builderAny : Launch := .builder true .p2pMesh .any .compute

/-- Two fibers are spawned; the first one awaits the second and is parked. -/
def parkInAwait : List (Act 1 1) :=
  [[.user (.host 0) (.spawn builderAny 0)], .replicate 3 (.run (.host 0)),
    [.user (.host 0) (.spawn builderAny 0)], .replicate 3 (.run (.host 0)),
    [.poll 0, .dispatch 0, .user (.fiber 0) (.await 1 0)], .replicate 8 (.run (.fiber 0)),
    .replicate 2 (.settle 0)].flatten

/-- The second fiber finishes; the first one is dispatched again and returns. -/
def finishTarget : List (Act 1 1) :=
  [[.dispatch 0, .user (.fiber 0) .finish], .replicate 5 (.run (.fiber 0)),
    .replicate 4 (.settle 0), [.dispatch 0], .replicate 3 (.run (.fiber 0))].flatten

def twoAwaiters : List (JoinAct 1 1) :=
  [parkInAwait.map .machine, [.await 0 (builderAny.handle 0 1 0)], .replicate 3 (.look 0),
    finishTarget.map .machine, .replicate 3 (.look 0)].flatten

/-- A fiber and a host thread await the same fiber. -/
theorem await_not_early_two : ∃ (tr : List (JoinAct 1 1)) (s : Joining 1 2 1) (h : JoinHist),
    JoinRun (1 : Fin 2) tr (s, h) ∧ h.returned = [⟨0, 1, [0]⟩, ⟨0, 1, [0]⟩] ∧
      h.NotEarly (1 : Fin 2) := by
  obtain ⟨⟨s, h⟩, hrun, heq⟩ : ∃ p, JoinRun (1 : Fin 2) twoAwaiters.reverse p ∧
      p.2.returned = [⟨0, 1, [0]⟩, ⟨0, 1, [0]⟩] :=
    Run.exists_of_guarded twoAwaiters (⟨.new 1 2 1 .p2pMesh, fun _ => .idle⟩, .empty)
      ⟨⟨⟨.p2pMesh, rfl⟩, rfl⟩, rfl⟩ (by decide +kernel)
  exact ⟨_, s, h, hrun, heq, await_not_early (by decide) (by decide) hrun⟩

end Dtact.Runtime
