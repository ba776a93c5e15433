import Dtact.Pool.Placement
import Dtact.Runtime.SameThread
import Dtact.Runtime.Stacks

/-!
# The future of a fiber is destroyed

The closure of an escaped future takes the box back before it polls, so the box goes when the
closure is left. The closure of a future inside the context drops it after the last poll, and a
panic that leaves a poll goes past that. The closure of each fiber is kept beside the machine.
-/

namespace Dtact.Runtime.Payload

open Scheduler Transition

/-! ## The closure -/

/-- The statements of the two closures that matter for the future. -/
inductive Stmt
  | fromRaw
  | waitPinned
  | dropInPlace
deriving DecidableEq, Repr

/-- `invoke_closure` of a fiber of `SpawnBuilder::spawn`. -/
def invokeClosure (isInline : Bool) : List Stmt :=
  if isInline then [.waitPinned, .dropInPlace] else [.fromRaw, .waitPinned]

/-- A closure and its future: the statements it stands before, whether it owns the box, whether a
panic has left a poll, and how often the destructor has run and the allocation was freed. -/
structure Frame where
  isInline : Bool
  rest : List Stmt
  owned : Bool
  panicked : Bool
  drops : Nat
  frees : Nat
deriving DecidableEq, Repr

namespace Frame

def new (isInline : Bool) : Frame := ⟨isInline, invokeClosure isInline, false, false, 0, 0⟩

/-- The closure is left. A box that it owns is dropped, and the future with it. -/
def leave (f : Frame) : Frame :=
  if f.owned then
    { f with rest := [], owned := false, drops := f.drops + 1, frees := f.frees + 1 }
  else { f with rest := [] }

/-- The closure goes on with the statements up to the next call of `wait_pinned`. -/
def goOn (f : Frame) : List Stmt → Frame
  | [] => f.leave
  | .fromRaw :: rest => goOn { f with owned := true } rest
  | .waitPinned :: rest => { f with rest := .waitPinned :: rest }
  | .dropInPlace :: rest => goOn { f with drops := f.drops + 1 } rest

/-- The closure calls `wait_pinned`. -/
def enter (f : Frame) : Frame := f.goOn f.rest

/-- `wait_pinned` has returned. -/
def resume (f : Frame) : Frame := f.goOn f.rest.tail

/-- A panic leaves `wait_pinned`, and with it the closure. -/
def unwind (f : Frame) : Frame := { f with panicked := true }.leave

/-- What the fiber does outside of a poll. -/
def next (f : Frame) : UserAct := if f.rest = [] then .finish else .wait

/-- The stack of the fiber goes from `c` to `c'`. `wait_pinned` has no panic of its own, so it
returns unless user code panics. A `cleanup_fn` is called with the pointer to the future. -/
def follow (f : Frame) (panics cleanup : Bool) (c c' : Control) : Frame :=
  match c, c' with
  | .body [], .body (_ :: _) => f.enter
  | .body (_ :: _), .body [] => if panics then f.unwind else f.resume
  | .body _, .epilogue _ _ => if cleanup then { f with drops := f.drops + 1 } else f
  | _, _ => f

/-- The destructor has run once, and the allocation of an escaped future was freed once. -/
def DestroyedOnce (f : Frame) : Prop := f.drops = 1 ∧ f.frees = if f.isInline then 0 else 1

instance (f : Frame) : Decidable f.DestroyedOnce := inferInstanceAs (Decidable (_ ∧ _))

end Frame

/-! ## The closures beside the machine -/

/-- What an entry point is given beside the launch: the size and the alignment of the future, or
whether there is a cleanup callback. -/
structure Passed where
  futSize : Nat
  align : Nat
  cleanup : Bool
deriving DecidableEq, Repr

/-- The machine, the closure of the last fiber of each context if it is one of
`SpawnBuilder::spawn`, and whether the `cleanup_fn` of the context is set. -/
structure St (n cap hosts : Nat) where
  rt : Machine n cap hosts
  frames : Nat → Option Frame
  cleanupFn : Nat → Bool

/-- The closure an entry point gives to its fiber, for the buffer at `bufferStart`. -/
def frameOf (bufferStart : Nat) (x : Passed) : Launch → Option Frame
  | .builder _ _ _ _ => some (.new (Arena.placeFuture bufferStart x.futSize x.align).isInline)
  | _ => none

/-- The `cleanup_fn` an entry point leaves. `SpawnBuilder::spawn` resets it for an escaped future
only, and `spawn_with_stack` never. -/
def cleanupOf (bufferStart : Nat) (x : Passed) (old : Bool) : Launch → Bool
  | .builder _ _ _ _ =>
    if (Arena.placeFuture bufferStart x.futSize x.align).isInline then old else false
  | .withStack => old
  | .fiberLaunch => x.cleanup
  | .fiberLaunchExt _ _ _ => x.cleanup

/-- `fiber_entry_point` goes on after the closure, and takes the `cleanup_fn`. -/
def takesCleanup : Control → Control → Bool
  | .body _, .epilogue _ _ => true
  | _, _ => false

section

variable {n cap hosts : Nat}

def panics : Act n hosts → Bool
  | .user _ .panic => true
  | _ => false

/-- Outside of a poll the fiber does what its closure says. -/
def St.obeys (s : St n cap hosts) (x : Act n hosts × Passed) : Bool :=
  match x.1 with
  | .user (.fiber w) u =>
    match s.rt.workers w with
    | .on .running i =>
      s.rt.shared.fibers i ≠ .body [] || (s.frames i).all fun f => u = f.next
    | _ => true
  | _ => true

/-- The closures after the machine has gone on to `rt'`. -/
def St.follow (buffer : Nat → Nat) (x : Act n hosts × Passed) (s : St n cap hosts)
    (rt' : Machine n cap hosts) : St n cap hosts :=
  let moved (i : Nat) := (s.frames i).map fun f =>
    f.follow (panics x.1) (s.cleanupFn i) (s.rt.shared.fibers i) (rt'.shared.fibers i)
  let taken (i : Nat) :=
    s.cleanupFn i && !takesCleanup (s.rt.shared.fibers i) (rt'.shared.fibers i)
  match s.rt.launches x.1 with
  | some (l, i) =>
    ⟨rt', Function.update moved i (frameOf (buffer i) x.2 l),
      Function.update taken i (cleanupOf (buffer i) x.2 (s.cleanupFn i) l)⟩
  | none => ⟨rt', moved, taken⟩

def St.Initial [NeZero n] (s : St n cap hosts) : Prop :=
  ∃ topology, s = ⟨.new n cap hosts topology, fun _ => none, fun _ => false⟩

/-- The machine with the closures; `buffer i` is the buffer of the context `i`. -/
def step [NeZero n] (buffer : Nat → Nat) (x : Act n hosts × Passed) (s : St n cap hosts) :
    Option (St n cap hosts) :=
  (Machine.step x.1 s.rt).map (s.follow buffer x)

end

/-! ## Stacks with `wait_pinned` at the bottom -/

inductive Polled : List Call → Prop
  | bottom {c : Call} : c.isPoll → Polled [c]
  | above (c : Call) {calls : List Call} : Polled calls → Polled (c :: calls)

/-- The call at the bottom is one of `wait_pinned`, in a poll if there are others above it. -/
inductive Rooted : List Call → Prop
  | bottom (pc : WaitPc) : Rooted [.wait pc]
  | above (c : Call) {calls : List Call} : Polled calls → Rooted (c :: calls)

variable {calls : List Call} {f : Frame}

theorem Polled.append (h : Polled calls) (above : List Call) : Polled (above ++ calls) := by
  induction above with
  | nil => exact h
  | cons c above ih => exact .above c ih

theorem Polled.unwind (h : Polled calls) : Polled (Runtime.unwind calls) := by
  induction h with
  | @bottom c hc =>
    rw [Runtime.unwind, List.dropWhile_cons_of_neg (by simp [hc])]
    exact .bottom hc
  | @above c calls hcalls ih =>
    unfold Runtime.unwind
    rw [List.dropWhile_cons]
    split
    · exact ih
    · exact .above c hcalls

theorem Polled.rooted (h : Polled calls) : Rooted calls := by
  cases h with
  | @bottom c hc =>
    cases c with
    | wait pc => exact .bottom pc
    | _ => cases hc
  | above c hcalls => exact .above c hcalls

namespace Rooted

variable {calls : List Call}

theorem polled (h : Rooted calls) (hin : inUser calls) : Polled calls := by
  cases h with
  | bottom pc => exact .bottom hin
  | above c hcalls => exact .above c hcalls

theorem replace {pc : WaitPc} {rest : List Call} (h : Rooted (.wait pc :: rest)) (pc' : WaitPc) :
    Rooted (.wait pc' :: rest) := by
  cases h with
  | bottom => exact .bottom pc'
  | above _ hrest => exact .above _ hrest

/-- User code in a poll stays above the bottom, unless its panic leaves the poll there. -/
theorem user {u : UserAct} {c : Control} (h : Rooted calls) (hin : inUser calls)
    (hu : u.onFiber calls = some c) :
    (∃ calls', c = .body calls' ∧ Rooted calls') ∨ c = .body [] ∧ u = .panic := by
  have hpolled := h.polled hin
  cases UserAct.onFiber_leads hu with
  | wait | wake | spawn | await => exact .inl ⟨_, rfl, .above _ hpolled⟩
  | yieldTo => exact .inl ⟨_, rfl, .above _ (.above _ hpolled)⟩
  | poll => exact .inl ⟨_, rfl, h.replace _⟩
  | done => cases h
  | unwind =>
    cases h with
    | bottom pc => exact .inr ⟨rfl, rfl⟩
    | above c hcalls => exact .inl ⟨_, rfl, hcalls.unwind.rooted⟩

/-- A step of a call stays above the bottom, unless it is the return of `wait_pinned`. -/
theorem run {n : Nat} [NeZero n] {who : Who n} {sh : Shared n} {c : Call} {rest : List Call}
    {next : Next n} (h : Rooted (c :: rest)) (hr : c.run who sh = some next) :
    Rooted (next.calls rest) ∨ next.calls rest = [] := by
  cases h with
  | bottom pc =>
    cases next with
    | panic sh' => exact .inr rfl
    | goto calls sh' | switch calls sh' =>
      rcases Call.run_follows hr with hown | ⟨c', hown, hf⟩
      · obtain rfl : calls = [] := hown
        exact .inr rfl
      · obtain rfl : calls = [c'] := hown
        cases hf with
        | wait _ pc' => exact .inl (.bottom pc')
  | above _ hrest =>
    refine .inl ?_
    cases next with
    | panic sh' => exact hrest.unwind.rooted
    | goto calls sh' | switch calls sh' => exact (hrest.append calls).rooted

end Rooted

/-! ## Where the closures are -/

/-- The closure has been left, by the return of `wait_pinned` or by a panic. -/
def Frame.Left (isInline : Bool) (f : Frame) : Prop :=
  f = (new isInline).enter.resume ∨ f = (new isInline).enter.unwind

/-- Where the closure of a fiber is, given the stack of the fiber. -/
inductive Stands : Control → Frame → Prop
  | before (isInline : Bool) : Stands (.body []) (.new isInline)
  | waiting (isInline : Bool) {calls : List Call} : Rooted calls →
      Stands (.body calls) (Frame.new isInline).enter
  | after (isInline : Bool) {f : Frame} : f.Left isInline → Stands (.body []) f
  | entryPoint (isInline : Bool) {f : Frame} (pc : EpiloguePc) (calls : List Call) :
      f.Left isInline → Stands (.epilogue pc calls) f

theorem Frame.follow_self (f : Frame) (panics cleanup : Bool) (c : Control) :
    f.follow panics cleanup c c = f := by
  cases c with
  | body calls => cases calls <;> rfl
  | _ => rfl

theorem Frame.follow_rooted (f : Frame) (panics cleanup : Bool) {calls' : List Call}
    (h : Rooted calls) (h' : Rooted calls') :
    f.follow panics cleanup (.body calls) (.body calls') = f := by
  cases h <;> cases h' <;> rfl

theorem Frame.follow_left (f : Frame) (panics cleanup : Bool) (h : Rooted calls) :
    f.follow panics cleanup (.body calls) (.body []) = if panics then f.unwind else f.resume := by
  cases h <;> rfl

theorem Frame.Left.next {isInline : Bool} (h : f.Left isInline) : f.next = .finish := by
  rcases h with rfl | rfl <;> cases isInline <;> rfl

/-- What a closure has destroyed when it was left. -/
theorem Frame.Left.destroyedOnce_iff {isInline : Bool} (h : f.Left isInline) :
    f.DestroyedOnce ↔ f.isInline = false ∨ f.panicked = false := by
  rcases h with rfl | rfl <;> cases isInline <;> decide

theorem Stands.left_of_gone {c : Control} (h : Stands c f) (hgone : c.gone) :
    ∃ isInline, f.Left isInline := by
  cases h with
  | before | waiting | after => cases hgone
  | entryPoint isInline pc calls hleft => exact ⟨isInline, hleft⟩

section

variable {n cap hosts : Nat} [NeZero n] {rt rt' : Machine n cap hosts} {a : Act n hosts}
  {i : Fin cap} {f : Frame}

/-- A step of the fiber takes its closure along. -/
theorem Stands.own (h : Stands (rt.shared.fibers i) f) (hown : rt.Own i a rt')
    (hobeys : ∀ w u, a = .user (.fiber w) u → rt.workers w = .on .running i →
      rt.shared.fibers i = .body [] → u = f.next) :
    Stands (rt'.shared.fibers i)
      (f.follow (panics a) false (rt.shared.fibers i) (rt'.shared.fibers i)) := by
  have hset (sh : Shared n) (c : Control) : (sh.setFiber i c).fibers i = c := sh.setFiber_self i c
  cases hown with
  | @user w u calls c hw hc hin hu =>
    rw [hset]
    have hnext (hnil : calls = []) : u = f.next := hobeys w u rfl hw (by rw [hc, hnil])
    rw [hc] at h ⊢
    cases h with
    | before isInline =>
      obtain rfl : u = .wait := (hnext rfl).trans (by cases isInline <;> rfl)
      cases hu
      exact .waiting isInline (.bottom _)
    | waiting isInline hroot =>
      rcases hroot.user hin hu with ⟨calls', rfl, hroot'⟩ | ⟨rfl, rfl⟩
      · rw [Frame.follow_rooted _ _ _ hroot hroot']
        exact .waiting isInline hroot'
      · rw [Frame.follow_left _ _ _ hroot]
        exact .after isInline (.inr rfl)
    | after isInline hleft =>
      obtain rfl : u = .finish := (hnext rfl).trans hleft.next
      cases hu
      exact .entryPoint isInline _ _ hleft
  | @body w c rest next hw hc hr =>
    have hc' : (rt.proceed w i (.body (next.calls rest)) next).shared.fibers i =
        .body (next.calls rest) := hset _ _
    rw [hc']
    rw [hc] at h ⊢
    cases h with
    | waiting isInline hroot =>
      rcases hroot.run hr with hroot' | hnil
      · rw [Frame.follow_rooted _ _ _ hroot hroot']
        exact .waiting isInline hroot'
      · rw [hnil, Frame.follow_left _ _ _ hroot]
        exact .after isInline (.inl rfl)
  | @late w pc c rest next hw hc hr hp =>
    have hc' : (rt.proceed w i (.epilogue pc (next.calls rest)) next).shared.fibers i =
        .epilogue pc (next.calls rest) := hset _ _
    rw [hc']
    rw [hc] at h ⊢
    cases h with
    | entryPoint isInline _ _ hleft => exact .entryPoint isInline _ _ hleft
  | @epilogue w pc hw hc =>
    rw [hc] at h ⊢
    cases h with
    | entryPoint isInline _ _ hleft =>
      cases pc with
      | finish | waiter | switch =>
        simp only [Machine.epilogue, Machine.setWorker, hset]
        exact .entryPoint isInline _ _ hleft
      | returned =>
        simp only [Machine.epilogue, hc]
        exact .entryPoint isInline _ _ hleft
  | @abort w pc c rest next hw hc hr hp =>
    rw [Frame.follow_self]
    exact h

/-- A step of a fiber that stays in its closure, or leaves it. -/
theorem takesCleanup_own (hown : rt.Own i a rt') {calls : List Call}
    (hc : rt.shared.fibers i = .body calls)
    (htakes : takesCleanup (rt.shared.fibers i) (rt'.shared.fibers i) = false) :
    ∃ calls', rt'.shared.fibers i = .body calls' := by
  have hset (sh : Shared n) (c : Control) : (sh.setFiber i c).fibers i = c := sh.setFiber_self i c
  cases hown with
  | user _ _ _ hu =>
    rw [hset] at htakes ⊢
    rcases UserAct.onFiber_control hu with hbody | rfl
    · exact hbody
    · rw [hc] at htakes
      cases htakes
  | body => exact ⟨_, hset _ _⟩
  | late _ hc' | epilogue _ hc' | abort _ hc' => cases hc.symm.trans hc'

omit [NeZero n] in
theorem starts_iff {j : Nat} : rt.Starts a j ↔ ∃ l, rt.launches a = some (l, j) := by
  constructor
  · rintro ⟨t, c, rfl, hc, hj⟩
    obtain ⟨l, core, rfl⟩ := Call.mem_spawns hj
    exact ⟨l, Machine.launches_eq.mpr ⟨t, core, rfl, hc⟩⟩
  · rintro ⟨l, h⟩
    obtain ⟨t, core, rfl, hc⟩ := Machine.launches_eq.mp h
    exact ⟨t, _, rfl, hc, by simp [Call.spawns]⟩

end

/-! ## Contexts -/

/-- What holds of a context: the closure is where the stack says, and a `cleanup_fn` is set only
while a fiber of a C entry point is in its closure. -/
structure Kept (c : Control) (frame : Option Frame) (cleanupFn : Bool) : Prop where
  stands : ∀ f ∈ frame, Stands c f
  cleanup : cleanupFn = true → frame = none ∧ ∃ calls, c = .body calls

section

variable {c c' : Control} {frame : Option Frame} {cleanupFn : Bool}

theorem Kept.cleanup_eq_false (h : Kept c frame cleanupFn) {f : Frame} (hf : f ∈ frame) :
    cleanupFn = false := by
  cases cleanupFn with
  | false => rfl
  | true =>
    have hnone := (h.cleanup rfl).1
    rw [hnone] at hf
    cases hf

/-- A context without a fiber has no `cleanup_fn`. -/
theorem Kept.cleanup_gone (h : Kept c frame cleanupFn) (hgone : c.gone) : cleanupFn = false := by
  cases cleanupFn with
  | false => rfl
  | true =>
    obtain ⟨-, calls, rfl⟩ := h.cleanup rfl
    cases hgone

theorem Kept.started (bufferStart : Nat) (x : Passed) (l : Launch) :
    Kept (.body []) (frameOf bufferStart x l) (cleanupOf bufferStart x false l) := by
  cases l with
  | builder allowDeflection mode affinity kind =>
    refine ⟨?_, ?_⟩
    · rintro f ⟨⟩
      exact .before _
    · simp [cleanupOf]
  | withStack => exact ⟨nofun, nofun⟩
  | fiberLaunch | fiberLaunchExt => exact ⟨nofun, fun _ => ⟨rfl, _, rfl⟩⟩

theorem Kept.follow (h : Kept c frame cleanupFn) (panics : Bool)
    (hstands : ∀ f ∈ frame, Stands c' (f.follow panics false c c'))
    (hbody : ∀ calls, c = .body calls → takesCleanup c c' = false → ∃ calls', c' = .body calls') :
    Kept c' (frame.map fun f => f.follow panics cleanupFn c c')
      (cleanupFn && !takesCleanup c c') := by
  constructor
  · rintro _ hf
    obtain ⟨f, hmem, rfl⟩ := Option.map_eq_some_iff.mp hf
    rw [h.cleanup_eq_false hmem]
    exact hstands f hmem
  · intro hc
    rw [Bool.and_eq_true, Bool.not_eq_true'] at hc
    obtain ⟨rfl, calls, hcalls⟩ := h.cleanup hc.1
    exact ⟨rfl, hbody calls hcalls hc.2⟩

end

/-! ## Runs -/

section

variable {n cap hosts : Nat} {buffer : Nat → Nat} {s s' : St n cap hosts}
  {x : Act n hosts × Passed}

structure Inv (s : St n cap hosts) : Prop where
  sound : s.rt.Sound
  kept : ∀ i : Fin cap, Kept (s.rt.shared.fibers i) (s.frames i) (s.cleanupFn i)

theorem St.obeys_own (h : s.obeys x) {w : Fin n} {i : Fin cap} {u : UserAct} {f : Frame}
    (ha : x.1 = .user (.fiber w) u) (hw : s.rt.workers w = .on .running i)
    (hc : s.rt.shared.fibers i = .body []) (hf : s.frames i = some f) : u = f.next := by
  simpa [St.obeys, ha, hw, hc, hf] using h

theorem St.follow_rt (rt' : Machine n cap hosts) : (s.follow buffer x rt').rt = rt' := by
  unfold St.follow
  split <;> rfl

variable [NeZero n]

theorem Inv.kept_started (h : Inv s) {rt' : Machine n cap hosts}
    (hst : Machine.step x.1 s.rt = some rt') {l : Launch} {i : Fin cap}
    (hl : s.rt.launches x.1 = some (l, i.val)) :
    Kept (rt'.shared.fibers i) ((s.follow buffer x rt').frames i)
      ((s.follow buffer x rt').cleanupFn i) := by
  have hs : s.rt.Starts x.1 i := starts_iff.mpr ⟨l, hl⟩
  have hold : s.cleanupFn i = false := (h.kept i).cleanup_gone (h.sound.start_gone hs)
  rw [(h.sound.started hst hs).1]
  simpa [St.follow, hl, hold] using Kept.started (buffer i) x.2 l

theorem Inv.kept_other (h : Inv s) (hobeys : s.obeys x) {rt' : Machine n cap hosts}
    (hst : Machine.step x.1 s.rt = some rt') {i : Fin cap} (hs : ¬ s.rt.Starts x.1 i) :
    Kept (rt'.shared.fibers i) ((s.follow buffer x rt').frames i)
      ((s.follow buffer x rt').cleanupFn i) := by
  have hmoved : Kept (rt'.shared.fibers i)
      ((s.frames i).map fun f => f.follow (panics x.1) (s.cleanupFn i) (s.rt.shared.fibers i)
        (rt'.shared.fibers i))
      (s.cleanupFn i && !takesCleanup (s.rt.shared.fibers i) (rt'.shared.fibers i)) := by
    refine (h.kept i).follow (panics x.1) (fun f hf => ?_) (fun calls hcalls htakes => ?_)
    all_goals by_cases hj : s.rt.Elsewhere x.1 i
    · rw [(Machine.step_fibers hst hj).resolve_right fun h => hs h.1, Frame.follow_self]
      exact (h.kept i).stands f hf
    · exact ((h.kept i).stands f hf).own (Machine.step_own hst hj)
        fun w u ha hw hc => St.obeys_own hobeys ha hw hc hf
    · rw [(Machine.step_fibers hst hj).resolve_right fun h => hs h.1]
      exact ⟨calls, hcalls⟩
    · exact takesCleanup_own (Machine.step_own hst hj) hcalls htakes
  cases hl : s.rt.launches x.1 with
  | none => simpa [St.follow, hl] using hmoved
  | some p =>
    have hne : i.val ≠ p.2 := fun heq => hs (starts_iff.mpr ⟨p.1, heq ▸ hl⟩)
    simpa [St.follow, hl, hne] using hmoved

theorem Inv.step (h : Inv s) (hobeys : s.obeys x) (hst : step buffer x s = some s') : Inv s' := by
  obtain ⟨rt', hrt, rfl⟩ := Option.map_eq_some_iff.mp hst
  constructor
  · rw [St.follow_rt]
    exact h.sound.step hrt
  · intro i
    rw [St.follow_rt]
    by_cases hs : s.rt.Starts x.1 i
    · obtain ⟨l, hl⟩ := starts_iff.mp hs
      exact h.kept_started hrt hl
    · exact h.kept_other hobeys hrt hs

/-- The runs in which every fiber of `SpawnBuilder::spawn` does what its closure says. -/
abbrev PayloadRun (buffer : Nat → Nat) : List (Act n hosts × Passed) → St n cap hosts → Prop :=
  Run St.Initial (step buffer) fun s x => s.obeys x

theorem inv {tr : List (Act n hosts × Passed)} (h : PayloadRun buffer tr s) : Inv s := by
  refine Run.invariant (I := fun _ s => Inv s) ?_ (fun _ _ _ _ hI hok hst => hI.step hok hst) h
  rintro _ ⟨topology, rfl⟩
  exact ⟨Machine.sound_new topology, fun _ => ⟨nofun, nofun⟩⟩

/-- **When a future is destroyed once.** In every run, the future of a fiber whose context is about
to be returned to the pool has been destroyed exactly once if and only if it was on the heap or no
panic has left one of its polls. -/
theorem destroyed_once_iff {tr : List (Act n hosts × Passed)} (h : PayloadRun buffer tr s)
    {w : Fin n} {i : Fin cap} {f : Frame} (hw : s.rt.workers w = .on .freePush i)
    (hf : s.frames i = some f) :
    f.DestroyedOnce ↔ f.isInline = false ∨ f.panicked = false := by
  have hinv := inv h
  have hgone := hinv.sound.freeing hw (.inr (.inr rfl))
  obtain ⟨isInline, hleft⟩ := ((hinv.kept i).stands f hf).left_of_gone hgone
  exact hleft.destroyedOnce_iff

end

/-! ## Two ends of a fiber -/

/-- A fiber of `SpawnBuilder::spawn` is started and polled, the poll ends with `u`, the fiber goes
on for the given number of steps until it can finish, and its context is freed up to the last
step. -/
def lifeOf (u : UserAct) (steps : Nat) : List (Act 1 1) :=
  [.user (.host 0) (.spawn (.builder true .p2pMesh .any .io) 0), .run (.host 0), .run (.host 0),
    .run (.host 0), .poll 0, .dispatch 0, .user (.fiber 0) .wait, .run (.fiber 0), .run (.fiber 0),
    .user (.fiber 0) u] ++ List.replicate steps (.run (.fiber 0)) ++
  [.user (.fiber 0) .finish, .run (.fiber 0), .run (.fiber 0), .run (.fiber 0), .settle 0,
    .settle 0, .settle 0]

/-- The run of a future of `futSize` bytes whose first poll ends with `u`. -/
def endOf (futSize : Nat) (u : UserAct) (steps : Nat) : Option (St 1 1 1) :=
  exec (guarded (fun s x => s.obeys x) (step fun _ => 65536))
    ((lifeOf u steps).map fun a => (a, ⟨futSize, 8, false⟩))
    ⟨.new 1 1 1 .p2pMesh, fun _ => none, fun _ => false⟩

theorem payloadRun_of_end (futSize : Nat) (u : UserAct) (steps : Nat) (f : Frame)
    (h : (endOf futSize u steps).map (fun s => (s.rt.workers 0, s.frames 0)) =
      some (.on .freePush 0, some f)) :
    ∃ tr, ∃ s : St 1 1 1, PayloadRun (fun _ => 65536) tr s ∧ s.rt.workers 0 = .on .freePush 0 ∧
      s.frames 0 = some f := by
  obtain ⟨s, hexec, heq⟩ := Option.map_eq_some_iff.mp h
  obtain ⟨hw, hf⟩ := Prod.mk.inj heq
  exact ⟨_, s, Run.of_exec_guarded _ ⟨.p2pMesh, rfl⟩ hexec, hw, hf⟩

/-- A future in the buffer that completes, and one on the heap that panics. -/
theorem destroyed_once_iff_ends :
    (∃ tr, ∃ s : St 1 1 1, ∃ f, PayloadRun (fun _ => 65536) tr s ∧
      s.rt.workers 0 = .on .freePush 0 ∧ s.frames 0 = some f ∧ f.isInline = true ∧
      f.DestroyedOnce) ∧
    ∃ tr, ∃ s : St 1 1 1, ∃ f, PayloadRun (fun _ => 65536) tr s ∧
      s.rt.workers 0 = .on .freePush 0 ∧ s.frames 0 = some f ∧ f.panicked = true ∧
      f.DestroyedOnce := by
  constructor
  · obtain ⟨tr, s, hrun, hw, hf⟩ :=
      payloadRun_of_end 100 .pollReady 1 ⟨true, [], false, false, 1, 0⟩ (by decide +kernel)
    exact ⟨tr, s, _, hrun, hw, hf, rfl, (destroyed_once_iff hrun hw hf).mpr (.inr rfl)⟩
  · obtain ⟨tr, s, hrun, hw, hf⟩ :=
      payloadRun_of_end 10000 .panic 0 ⟨false, [], false, true, 1, 1⟩ (by decide +kernel)
    exact ⟨tr, s, _, hrun, hw, hf, rfl, (destroyed_once_iff hrun hw hf).mpr (.inl rfl)⟩

/-- A future of 100 bytes panics in its first poll. Its context is about to be returned to the pool,
and the destructor has not run. -/
theorem panicked_future_leaks :
    ∃ tr, ∃ s : St 1 1 1, ∃ f, PayloadRun (fun _ => 65536) tr s ∧
      s.rt.workers 0 = .on .freePush 0 ∧ s.frames 0 = some f ∧ f.drops = 0 ∧
      ¬ f.DestroyedOnce := by
  obtain ⟨tr, s, hrun, hw, hf⟩ :=
    payloadRun_of_end 100 .panic 0 ⟨true, [], false, true, 0, 0⟩ (by decide +kernel)
  exact ⟨tr, s, _, hrun, hw, hf, rfl, by decide⟩

end Dtact.Runtime.Payload
