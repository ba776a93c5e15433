import Mathlib.Data.Nat.Bitwise
import Dtact.Runtime.Lifecycle

/-!
# Handles of new fibers

A handle has the context id in the low 32 bits, 16 bits for the core, 15 bits of the generation and
a valid bit. The generation is loaded between the initialisation of the context and the enqueue of
the fiber. `Launched` is what a thread in an entry point has in its registers.
-/

namespace Dtact.Runtime

open Scheduler Transition

/-! ## Handles -/

/-- The handle of `SpawnBuilder::spawn` and of the entry points for C. -/
def packHandle (ctxId core gen : Nat) : Nat :=
  ctxId ||| (core <<< 32) % 2 ^ 64 ||| ((gen &&& 0x7FFF) <<< 48) ||| (1 <<< 63)

/-- The handle of `fiber::spawn_with_stack`. -/
def stackHandle (ctxId core : Nat) : Nat := ctxId ||| (core <<< 32) % 2 ^ 64

def isValid (handle : Nat) : Bool := handle.testBit 63

/-- The handle without its valid bit. -/
def handleVal (handle : Nat) : Nat := handle &&& (2 ^ 64 - 1 - 1 <<< 63)

/-- `target_ctx_id` of `dtact_await`. -/
def awaitTarget (handle : Nat) : Nat := handleVal handle &&& 0xFFFFFFFF

/-- `handle_gen` of `dtact_await`. -/
def awaitGeneration (handle : Nat) : Nat := (handleVal handle >>> 48) &&& 0x7FFF

/-- `target_ctx_id` of `yield_to`. -/
def yieldTarget (handle : Nat) : Nat := handle &&& 0xFFFFFFFF

/-- `target_core_id` of `yield_to`. -/
def yieldCore (handle : Nat) : Nat := (handle >>> 32) &&& 0xFFFF

section

variable {c k g j : Nat}

theorem testBit_valid : (1 <<< 63 : Nat).testBit j = decide (j = 63) := by
  rw [Nat.one_shiftLeft, Nat.testBit_two_pow]
  exact decide_eq_decide.mpr eq_comm

theorem testBit_stackHandle : (stackHandle c k).testBit j =
    (c.testBit j || decide (j < 64) && (decide (32 ≤ j) && k.testBit (j - 32))) := by
  simp only [stackHandle, Nat.testBit_or, Nat.testBit_mod_two_pow, Nat.testBit_shiftLeft, ge_iff_le]

theorem testBit_packHandle : (packHandle c k g).testBit j =
    ((stackHandle c k).testBit j ||
      decide (48 ≤ j) && (decide (j - 48 < 15) && g.testBit (j - 48)) || decide (j = 63)) := by
  have h15 : (0x7FFF : Nat) = 2 ^ 15 - 1 := rfl
  have hpack : packHandle c k g =
      stackHandle c k ||| ((g &&& 0x7FFF) <<< 48) ||| (1 <<< 63) := rfl
  rw [hpack, h15, Nat.and_two_pow_sub_one_eq_mod, Nat.testBit_or, Nat.testBit_or, testBit_valid,
    Nat.testBit_shiftLeft, Nat.testBit_mod_two_pow]

/-- A context id is a word of 32 bits. -/
theorem testBit_eq_false (hc : c < 2 ^ 32) (hj : 32 ≤ j) : c.testBit j = false :=
  Nat.testBit_lt_two_pow (hc.trans_le (Nat.pow_le_pow_right (by decide) hj))

theorem handleVal_eq (handle : Nat) : handleVal handle = handle % 2 ^ 63 := by
  have hmask : (2 ^ 64 - 1 - 1 <<< 63 : Nat) = 2 ^ 63 - 1 := rfl
  rw [handleVal, hmask, Nat.and_two_pow_sub_one_eq_mod]

/-- Both decoders read the same context id. -/
theorem awaitTarget_eq (handle : Nat) : awaitTarget handle = yieldTarget handle := by
  have h32 : (0xFFFFFFFF : Nat) = 2 ^ 32 - 1 := rfl
  rw [awaitTarget, yieldTarget, handleVal_eq, h32, Nat.and_two_pow_sub_one_eq_mod,
    Nat.and_two_pow_sub_one_eq_mod]
  exact Nat.mod_mod_of_dvd handle (by decide)

theorem isValid_pack : isValid (packHandle c k g) = true := by
  simp [isValid, testBit_packHandle]

theorem yieldTarget_pack (hc : c < 2 ^ 32) : yieldTarget (packHandle c k g) = c := by
  have h32 : (0xFFFFFFFF : Nat) = 2 ^ 32 - 1 := rfl
  rw [yieldTarget, h32, Nat.and_two_pow_sub_one_eq_mod]
  refine Nat.eq_of_testBit_eq fun j => ?_
  rw [Nat.testBit_mod_two_pow, testBit_packHandle, testBit_stackHandle]
  by_cases hj : j < 32
  · have h₁ : ¬ 32 ≤ j := by omega
    have h₂ : ¬ 48 ≤ j := by omega
    have h₃ : j ≠ 63 := by omega
    simp [hj, h₁, h₂, h₃]
  · simp [hj, testBit_eq_false hc (Nat.le_of_not_lt hj)]

theorem yieldCore_pack (hc : c < 2 ^ 32) : yieldCore (packHandle c k g) = asU16 k := by
  have h16 : (0xFFFF : Nat) = 2 ^ 16 - 1 := rfl
  have hcore : asU16 k = k % 2 ^ 16 := rfl
  rw [yieldCore, h16, Nat.and_two_pow_sub_one_eq_mod, hcore]
  refine Nat.eq_of_testBit_eq fun j => ?_
  rw [Nat.testBit_mod_two_pow, Nat.testBit_mod_two_pow, Nat.testBit_shiftRight,
    testBit_packHandle, testBit_stackHandle]
  by_cases hj : j < 16
  · have h₁ : 32 + j < 64 := by omega
    have h₂ : ¬ 48 ≤ 32 + j := by omega
    have h₃ : 32 + j ≠ 63 := by omega
    simp [hj, h₁, h₂, h₃, testBit_eq_false hc]
  · simp [hj]

/-- A core beyond 16 bits is mixed into the generation. -/
theorem awaitGeneration_pack (hc : c < 2 ^ 32) :
    awaitGeneration (packHandle c k g) = (k >>> 16 ||| g) % 2 ^ 15 := by
  have h15 : (0x7FFF : Nat) = 2 ^ 15 - 1 := rfl
  rw [awaitGeneration, handleVal_eq, h15, Nat.and_two_pow_sub_one_eq_mod]
  refine Nat.eq_of_testBit_eq fun j => ?_
  rw [Nat.testBit_mod_two_pow, Nat.testBit_mod_two_pow, Nat.testBit_shiftRight,
    Nat.testBit_mod_two_pow, testBit_packHandle, testBit_stackHandle, Nat.testBit_or,
    Nat.testBit_shiftRight]
  by_cases hj : j < 15
  · have h₁ : 48 + j < 63 := by omega
    have h₂ : 48 + j < 64 := by omega
    have h₃ : 48 + j ≠ 63 := by omega
    have h₄ : 48 + j - 32 = 16 + j := by omega
    have h₅ : 32 ≤ 48 + j := by omega
    simp [hj, h₁, h₂, h₃, h₄, h₅, testBit_eq_false hc]
  · simp [hj]

theorem isValid_stack (hc : c < 2 ^ 32) (hk : k < 2 ^ 16) : isValid (stackHandle c k) = false := by
  have hbit : k.testBit 31 = false :=
    Nat.testBit_lt_two_pow (hk.trans_le (Nat.pow_le_pow_right (by decide) (by decide)))
  simp [isValid, testBit_stackHandle, testBit_eq_false hc, hbit]

end

/-! ## Entry points -/

/-- What a thread in an entry point has in its registers. -/
structure Launched where
  launch : Launch
  ctxId : Nat
  currentCore : Nat
  /-- The generation, once it has been loaded. -/
  gen : Option Nat
  /-- For reference: the `origin_core` that was recorded in the context. -/
  originCore : Nat
  /-- For reference: the generation of the context when it was initialised. -/
  generation : Nat
deriving DecidableEq

def Launched.handle (r : Launched) : Nat :=
  match r.launch with
  | .withStack => stackHandle r.ctxId r.currentCore
  | _ => packHandle r.ctxId r.currentCore (r.gen.getD 0)

theorem handle_withStack {r : Launched} (h : r.launch = .withStack) :
    r.handle = stackHandle r.ctxId r.currentCore := by
  simp [Launched.handle, h]

theorem handle_pack {r : Launched} {g : Nat} (h : r.launch ≠ .withStack) (hg : r.gen = some g) :
    r.handle = packHandle r.ctxId r.currentCore g := by
  unfold Launched.handle
  split
  · exact absurd ‹_› h
  · rw [hg]
    rfl

/-- The call has all it needs to go on to `wake_fiber`. -/
def Launched.ready (r : Launched) : Bool := r.launch = .withStack || r.gen.isSome

/-- Who makes the calls of a stack. -/
inductive Owner (cap hosts : Nat)
  | host (h : Fin hosts)
  | fiber (i : Fin cap)
deriving DecidableEq

/-- The runtime with the entry points in progress and the handles returned so far. -/
structure Spawner (n cap hosts : Nat) where
  rt : Machine n cap hosts
  launched : Owner cap hosts → Option Launched
  returned : List Launched

namespace Machine

variable {n cap hosts : Nat}

/-- The calls of a thread outside, or of the closure of a fiber. -/
def callsOf (rt : Machine n cap hosts) : Owner cap hosts → List Call
  | .host h => rt.hosts h
  | .fiber i =>
    match rt.shared.fibers i with
    | .body calls => calls
    | _ => []

/-- Who is about to go on in a call, and in which one. -/
def atCall (rt : Machine n cap hosts) : Thread n hosts → Option (Owner cap hosts × Call)
  | .host h => (rt.hosts h).head?.map fun c => (.host h, c)
  | .fiber w =>
    match rt.workers w with
    | .on .running i => (rt.callsOf (.fiber i)).head?.map fun c => (.fiber i, c)
    | _ => none

end Machine

inductive SpawnAct (n cap hosts : Nat)
  | act (a : Act n hosts)
  /-- The load of the generation. -/
  | loadGen (o : Owner cap hosts)
deriving DecidableEq

namespace Spawner

variable {n cap hosts : Nat}

def new (n cap hosts : Nat) [NeZero n] (topology : TopologyMode) : Spawner n cap hosts :=
  ⟨.new n cap hosts topology, fun _ => none, []⟩

def Initial [NeZero n] (s : Spawner n cap hosts) : Prop := ∃ topology, s = new n cap hosts topology

def set (s : Spawner n cap hosts) (o : Owner cap hosts) (r : Option Launched) :
    Spawner n cap hosts :=
  { s with launched := Function.update s.launched o r }

/-- What a step of the call `c` of `o` does to the registers of `o`; `rt'` is the runtime after it.
The core is what `topology::current()` says, a `u16`. -/
def proceed [NeZero n] (s : Spawner n cap hosts) (current : Caller n) (o : Owner cap hosts)
    (c : Call) (rt' : Machine n cap hosts) : Option (Spawner n cap hosts) :=
  match c, s.launched o with
  | .spawn l core (.init i), _ =>
    if core < 2 ^ 16 then
      some ({ s with rt := rt' }.set o (some {
        launch := l
        ctxId := i
        currentCore := l.core current core
        gen := none
        originCore := (rt'.shared.ctx i).originCore
        generation := (s.rt.shared.ctx i).generation }))
    else none
  | .wakeFiber origin i pinned affinity .enqueue, some r =>
    if r.ready then
      match s.rt.shared.enqueue current origin i pinned affinity with
      | .ok (true, _) => some ({ s with rt := rt', returned := r :: s.returned }.set o none)
      | .ok (false, _) => some { s with rt := rt' }
      -- the call panics
      | .error _ => some ({ s with rt := rt' }.set o none)
    else none
  | _, _ => some { s with rt := rt' }

def step [NeZero n] (a : SpawnAct n cap hosts) (s : Spawner n cap hosts) :
    Option (Spawner n cap hosts) :=
  match a with
  | .act (.run t) =>
    (Machine.step (.run t) s.rt).bind fun rt' =>
      match s.rt.atCall t with
      | some (o, c) => s.proceed (Machine.current t) o c rt'
      | none => some { s with rt := rt' }
  | .act a => (Machine.step a s.rt).map fun rt' => { s with rt := rt' }
  | .loadGen o =>
    match s.launched o with
    | some r =>
      if r.launch ≠ .withStack ∧ r.gen = none then
        some (s.set o (some { r with gen := some (s.rt.shared.ctx r.ctxId).generation }))
      else none
    | none => none

end Spawner

/-! ## Threads in an entry point -/

namespace Machine

variable {n cap hosts : Nat} {rt rt' : Machine n cap hosts} {a : Act n hosts}
  {o : Owner cap hosts} {c : Call} {t : Thread n hosts}

theorem callsOf_fiber {i : Fin cap} (h : (rt.callsOf (.fiber i)).head? = some c) :
    ∃ rest, rt.shared.fibers i = .body (c :: rest) := by
  simp only [callsOf] at h
  split at h
  · next calls hcalls =>
    obtain ⟨rest, rfl⟩ := List.head?_eq_some_iff.mp h
    exact ⟨rest, hcalls⟩
  · cases h

/-- The call that is about to enqueue `j` claims it, beside a worker that has it in hand. -/
theorem executing_lt_live {j : Nat} (h : (rt.callsOf o).head? = some c) (hj : j ∈ c.wakes) :
    executing rt.workers j < rt.live j := by
  have hpos := List.count_pos_iff.mpr hj
  cases o with
  | host k =>
    obtain ⟨rest, hrest⟩ := List.head?_eq_some_iff.mp h
    have hsum : owned Call.wakes j (rt.hosts k) ≤ hostsOwn Call.wakes rt.hosts j :=
      Finset.single_le_sum (f := fun k => owned Call.wakes j (rt.hosts k))
        (fun _ _ => Nat.zero_le _) (Finset.mem_univ k)
    rw [show rt.hosts k = c :: rest from hrest, owned_cons] at hsum
    simp only [live]
    omega
  | fiber i =>
    obtain ⟨rest, hrest⟩ := callsOf_fiber h
    have hsum : owned Call.wakes j (rt.shared.fibers i).calls ≤
        fibersOwn cap Call.wakes rt.shared.fibers j :=
      Finset.single_le_sum (f := fun k => owned Call.wakes j (rt.shared.fibers k).calls)
        (fun _ _ => Nat.zero_le _) (Finset.mem_range.mpr i.isLt)
    rw [hrest, Control.calls, owned_cons] at hsum
    simp only [live]
    omega

theorem head_of_atCall (h : rt.atCall t = some (o, c)) : (rt.callsOf o).head? = some c := by
  cases t with
  | host k =>
    obtain ⟨_, hhead, heq⟩ := Option.map_eq_some_iff.mp h
    cases heq
    exact hhead
  | fiber w =>
    simp only [atCall] at h
    split at h
    · obtain ⟨_, hhead, heq⟩ := Option.map_eq_some_iff.mp h
      cases heq
      exact hhead
    · cases h

theorem nextCall_of_atCall (h : rt.atCall t = some (o, c)) : rt.nextCall t = some c := by
  cases t with
  | host k =>
    obtain ⟨_, hhead, heq⟩ := Option.map_eq_some_iff.mp h
    cases heq
    exact hhead
  | fiber w =>
    simp only [atCall] at h
    split at h
    · next i hw =>
      obtain ⟨_, hhead, heq⟩ := Option.map_eq_some_iff.mp h
      cases heq
      obtain ⟨rest, hrest⟩ := callsOf_fiber hhead
      simp [nextCall, hw, hrest, Control.calls]
    · cases h

section

variable [NeZero n]

theorem claims_outside (topology : TopologyMode) {i : Nat} (hi : cap ≤ i) :
    (new n cap hosts topology).live i + (new n cap hosts topology).idle i = 0 := by
  rw [claims_new, List.count_eq_zero, List.mem_range]
  exact Nat.not_lt.mpr hi

/-- A context that is about to be enqueued stays at its generation, whoever acts. -/
theorem Sound.generation_waking (hs : rt.Sound) (hst : Machine.step a rt = some rt') {j : Nat}
    (hhead : (rt.callsOf o).head? = some c) (hj : j ∈ c.wakes) :
    (rt'.shared.ctx j).generation = (rt.shared.ctx j).generation := by
  have hclaims := hs.claims j
  have hlive := executing_lt_live hhead hj
  have hctx := step_context hst j
  generalize rt'.shared.ctx j = x at hctx
  cases hctx with
  | keep _ hk => exact hk.generation
  | handle _ _ hsame => exact hsame.generation
  | start hcall =>
    -- the thread that starts a fiber has the only claim to the context
    have hidle : 0 < rt.idle j := idle_pos hcall (List.mem_singleton.mpr rfl)
    omega
  | waiter => rfl
  | freeGen hw hi =>
    -- and so has the worker that frees it
    have hexec := executing_pos hw
    rw [hi] at hexec
    omega

/-- A step of a call of `o` as the call has it. -/
theorem step_atCall (hst : step (.run t) rt = some rt') (h : rt.atCall t = some (o, c)) :
    ∃ who rest next, who.current = current t ∧ c.run who rt.shared = some next ∧
      rt'.callsOf o = next.calls rest ∧ rt'.shared.ctx = next.shared.ctx := by
  cases t with
  | host k =>
    obtain ⟨_, hhead, heq⟩ := Option.map_eq_some_iff.mp h
    cases heq
    cases step_takes hst with
    | @hostRun _ c' rest next hc hr =>
      rw [hc] at hhead
      cases hhead
      exact ⟨⟨none, .host⟩, rest, next, rfl, hr, by simp [callsOf, setHost], rfl⟩
    | receive ha _ => rcases ha with ha | ha <;> cases ha
  | fiber w =>
    simp only [atCall] at h
    split at h
    · next i hw =>
      obtain ⟨_, hhead, heq⟩ := Option.map_eq_some_iff.mp h
      cases heq
      obtain ⟨rest, hrest⟩ := callsOf_fiber hhead
      have hown : rt.Own i (.run (.fiber w)) rt' :=
        step_own hst fun helse => (helse w i hw rfl).1 rfl
      cases hown with
      | @body _ c' rest' next _ hc hr =>
        rw [hrest] at hc
        cases hc
        refine ⟨⟨some i, .worker w⟩, rest, next, rfl, hr, ?_, rfl⟩
        simp [callsOf, proceed, setWorker]
      | late _ hc _ _ | epilogue _ hc | abort _ hc _ _ =>
        rw [hrest] at hc
        cases hc
    · cases h

theorem inUser_of_hostUser {k : Fin hosts} {u : UserAct}
    (hst : step (.user (.host k) u) rt = some rt') : inUser (rt.hosts k) := by
  unfold step at hst
  split at hst
  · cases hst
  · simp only [userStep] at hst
    split at hst
    · assumption
    · cases hst

/-- Nobody else touches the calls of a thread that is in the runtime. -/
theorem Sound.step_callsOf (hs : rt.Sound) (hst : Machine.step a rt = some rt')
    (hhead : (rt.callsOf o).head? = some c) (hpoll : c.isPoll = false)
    (hother : ∀ t c', a = .run t → rt.atCall t ≠ some (o, c')) :
    rt'.callsOf o = rt.callsOf o := by
  have huser {calls : List Call} (hc : calls.head? = some c) : ¬ inUser calls := by
    obtain ⟨rest, rfl⟩ := List.head?_eq_some_iff.mp hc
    simp [inUser, hpoll]
  cases o with
  | host k =>
    have hset {k' : Fin hosts} (hk : k ≠ k') (m : Machine n cap hosts) (calls : List Call) :
        (m.setHost k' calls).hosts k = m.hosts k := by
      simp [setHost, hk]
    show rt'.hosts k = rt.hosts k
    cases step_takes hst with
    | @hostUser k' u calls _ =>
      refine hset (fun hk => ?_) rt calls
      subst hk
      exact huser hhead (inUser_of_hostUser hst)
    | @hostRun k' c' rest next hc _ =>
      refine hset (fun hk => ?_) _ _
      subst hk
      exact hother _ c' rfl (by simp [atCall, hc])
    | @epilogue w i pc _ _ => cases pc <;> rfl
    | _ => rfl
  | fiber i =>
    obtain ⟨rest, hrest⟩ := callsOf_fiber hhead
    suffices hfibers : rt'.shared.fibers i = rt.shared.fibers i by
      simp only [callsOf, hfibers]
    by_cases helse : rt.Elsewhere a i
    · refine (step_fibers hst helse).resolve_right fun hspawned => ?_
      have hgone := hs.start_gone hspawned.1
      rw [hrest] at hgone
      cases hgone
    · cases step_own hst helse with
      | user _ hc hin _ =>
        rw [hrest] at hc
        cases hc
        exact absurd hin (huser (List.head?_cons))
      | @body w c' _ _ hw hc _ =>
        exact absurd (by simp [atCall, hw, callsOf, hc]) (hother _ c' rfl)
      | late _ hc _ _ | epilogue _ hc =>
        rw [hrest] at hc
        cases hc
      | abort => rfl

end

end Machine

/-- Unless it takes the task or panics, `wake_fiber` goes on. -/
theorem EnqueuePc.run_stays {n : Nat} [NeZero n] {who : Who n} {sh : Shared n} {next : Next n}
    {pc : EnqueuePc} {origin i : Nat} {pinned : Bool} {affinity : Affinity}
    (h : pc.run who origin i pinned affinity sh = some next)
    (hfull : pc = .enqueue →
      ∃ sched, sh.enqueue who.current origin i pinned affinity = .ok (false, sched)) :
    ∃ pc', ∀ rest, next.calls rest = .wakeFiber origin i pinned affinity pc' :: rest := by
  cases pc with
  | enqueue =>
    obtain ⟨sched, hsched⟩ := hfull rfl
    simp only [EnqueuePc.run, hsched, Option.some.injEq] at h
    subst h
    exact ⟨_, fun _ => rfl⟩
  | store =>
    obtain ⟨_, _, rfl⟩ := Option.map_eq_some_iff.mp h
    exact ⟨_, fun _ => rfl⟩
  | switch =>
    cases h
    exact ⟨_, fun _ => rfl⟩

namespace Spawner

open Machine

variable {n cap hosts : Nat}

/-- What the registers of an entry point say about its fiber. -/
structure Faithful (cap : Nat) (r : Launched) : Prop where
  ctxId : r.ctxId < cap
  originCore : r.originCore = asU16 r.currentCore
  gen : ∀ g, r.gen = some g → g = r.generation
  core : r.launch = .withStack → r.currentCore < 2 ^ 16

/-- The thread is about to enqueue its new fiber, whose context is as it was initialised. -/
structure Enqueues (rt : Machine n cap hosts) (o : Owner cap hosts) (r : Launched) : Prop where
  call : ∃ pinned affinity pc,
    (rt.callsOf o).head? = some (.wakeFiber r.currentCore r.ctxId pinned affinity pc)
  generation : (rt.shared.ctx r.ctxId).generation = r.generation

structure Launching (s : Spawner n cap hosts) : Prop where
  sound : s.rt.Sound
  /-- There are no contexts beyond the capacity of the pool. -/
  outside : ∀ i, cap ≤ i → s.rt.live i + s.rt.idle i = 0
  launched : ∀ o r, s.launched o = some r → Faithful cap r ∧ Enqueues s.rt o r
  returned : ∀ r ∈ s.returned, Faithful cap r ∧ r.ready

variable [NeZero n] {s s' : Spawner n cap hosts} {rt rt' : Machine n cap hosts}
  {a : Act n hosts} {o : Owner cap hosts} {r : Launched} {t : Thread n hosts} {c : Call}

theorem Enqueues.other (h : Enqueues rt o r) (hs : rt.Sound) (hst : Machine.step a rt = some rt')
    (hother : ∀ t c', a = .run t → rt.atCall t ≠ some (o, c')) : Enqueues rt' o r := by
  obtain ⟨pinned, affinity, pc, hhead⟩ := h.call
  refine ⟨⟨pinned, affinity, pc, ?_⟩, ?_⟩
  · rw [hs.step_callsOf hst hhead rfl hother]
    exact hhead
  · rw [hs.generation_waking hst hhead (List.mem_singleton.mpr rfl)]
    exact h.generation

theorem Enqueues.own (h : Enqueues rt o r) (hs : rt.Sound)
    (hst : Machine.step (.run t) rt = some rt') (hat : rt.atCall t = some (o, c))
    (hfull : ∀ pinned affinity,
      c = .wakeFiber r.currentCore r.ctxId pinned affinity .enqueue →
      ∃ sched, rt.shared.enqueue (current t) r.currentCore r.ctxId pinned affinity =
        .ok (false, sched)) : Enqueues rt' o r := by
  obtain ⟨pinned, affinity, pc, hhead⟩ := h.call
  obtain rfl : c = .wakeFiber r.currentCore r.ctxId pinned affinity pc := by
    have hhead' := head_of_atCall hat
    rw [hhead] at hhead'
    exact (Option.some.inj hhead').symm
  obtain ⟨who, rest, next, hwho, hr, hcalls, -⟩ := step_atCall hst hat
  obtain ⟨pc', hpc'⟩ := EnqueuePc.run_stays hr fun hpc => by
    rw [hwho]
    exact hfull pinned affinity (by rw [hpc])
  refine ⟨⟨pinned, affinity, pc', ?_⟩, ?_⟩
  · rw [hcalls, hpc']
    rfl
  · rw [hs.generation_waking hst hhead (List.mem_singleton.mpr rfl)]
    exact h.generation

/-- A fiber has been started: the registers of the call are those of its context. -/
theorem launched_init (hout : ∀ i, cap ≤ i → rt.live i + rt.idle i = 0)
    {l : Launch} {core i : Nat} (hcore : core < 2 ^ 16)
    (hst : Machine.step (.run t) rt = some rt')
    (hat : rt.atCall t = some (o, .spawn l core (.init i)))
    (hr : r = ⟨l, i, l.core (current t) core, none, (rt'.shared.ctx i).originCore,
      (rt.shared.ctx i).generation⟩) : Faithful cap r ∧ Enqueues rt' o r := by
  subst hr
  obtain ⟨who, rest, next, hwho, hrun, hcalls, hctx⟩ := step_atCall hst hat
  have hidle : 0 < rt.idle i := idle_pos (nextCall_of_atCall hat) (List.mem_singleton.mpr rfl)
  cases hrun
  have hinit : rt'.shared.ctx i =
      l.init rt.shared.sched.topology (l.core (current t) core) (rt.shared.ctx i) := by
    rw [hctx, ← hwho]
    exact rt.shared.setCtx_self i _
  have hcall : ∃ pinned affinity pc, (rt'.callsOf o).head? =
      some (.wakeFiber (l.core (current t) core) i pinned affinity pc) := by
    rw [hcalls, hwho]
    exact ⟨_, _, _, rfl⟩
  refine ⟨⟨?_, ?_, nofun, ?_⟩, ⟨hcall, ?_⟩⟩
  · by_contra hge
    have hzero := hout i (Nat.le_of_not_lt hge)
    omega
  · simp only [hinit]
    cases l <;> rfl
  · rintro rfl
    exact hcore
  · simp only [hinit]
    cases l <;> rfl

section

variable (h : Launching s)

include h

/-- A step of the runtime, as the registers have it, keeps what holds of the runtime. -/
theorem Launching.of_step (hst : Machine.step a s.rt = some rt')
    {launched : Owner cap hosts → Option Launched} {returned : List Launched}
    (hlaunched : ∀ o r, launched o = some r → Faithful cap r ∧ Enqueues rt' o r)
    (hreturned : ∀ r ∈ returned, Faithful cap r ∧ r.ready) :
    Launching ⟨rt', launched, returned⟩ where
  sound := h.sound.step hst
  outside i hi := Nat.le_zero.mp ((step_spends hst i).total.trans (h.outside i hi).le)
  launched := hlaunched
  returned := hreturned

theorem Launching.others (hst : Machine.step (.run t) s.rt = some rt')
    (hat : s.rt.atCall t = some (o, c)) {o' : Owner cap hosts} (ho : o' ≠ o)
    (hr : s.launched o' = some r) : Faithful cap r ∧ Enqueues rt' o' r := by
  obtain ⟨hgood, henq⟩ := h.launched o' r hr
  refine ⟨hgood, henq.other h.sound hst ?_⟩
  rintro t' c' ⟨⟩ hat'
  rw [hat] at hat'
  cases hat'
  exact ho rfl

theorem Launching.set (hst : Machine.step (.run t) s.rt = some rt')
    (hat : s.rt.atCall t = some (o, c)) {r? : Option Launched} {returned : List Launched}
    (hr? : ∀ r, r? = some r → Faithful cap r ∧ Enqueues rt' o r)
    (hreturned : ∀ r ∈ returned, Faithful cap r ∧ r.ready) :
    Launching ({ s with rt := rt', returned := returned }.set o r?) := by
  refine h.of_step hst (fun o' r hr => ?_) hreturned
  rcases eq_or_ne o' o with rfl | ho
  · rw [Function.update_self] at hr
    exact hr? r hr
  · rw [Function.update_of_ne ho] at hr
    exact h.others hst hat ho hr

theorem Launching.keep (hst : Machine.step (.run t) s.rt = some rt')
    (hat : s.rt.atCall t = some (o, c))
    (hown : ∀ r, s.launched o = some r → Enqueues s.rt o r → Enqueues rt' o r) :
    Launching { s with rt := rt' } := by
  refine h.of_step hst (fun o' r hr => ?_) h.returned
  rcases eq_or_ne o' o with rfl | ho
  · obtain ⟨hgood, henq⟩ := h.launched o' r hr
    exact ⟨hgood, hown r hr henq⟩
  · exact h.others hst hat ho hr

theorem Launching.proceed (hst : Machine.step (.run t) s.rt = some rt')
    (hat : s.rt.atCall t = some (o, c)) (hp : s.proceed (current t) o c rt' = some s') :
    Launching s' := by
  unfold Spawner.proceed at hp
  split at hp
  · -- the context is initialised
    rw [Option.ite_none_right_eq_some] at hp
    obtain ⟨hcore, heq⟩ := hp
    cases heq
    refine h.set hst hat (fun r hr => ?_) h.returned
    exact launched_init h.outside hcore hst hat (Option.some.inj hr).symm
  · next r hr =>
    obtain ⟨hgood, henq⟩ := h.launched o r hr
    rw [Option.ite_none_right_eq_some] at hp
    obtain ⟨hready, hp⟩ := hp
    split at hp <;> cases hp
    · -- the handle is returned
      refine h.set hst hat nofun fun r' hr' => ?_
      rcases List.mem_cons.mp hr' with rfl | hold
      · exact ⟨hgood, hready⟩
      · exact h.returned r' hold
    · next sched hfull =>
      refine h.keep hst hat fun r' _ henq' => henq'.own h.sound hst hat ?_
      rintro _ _ ⟨⟩
      exact ⟨sched, hfull⟩
    · exact h.set hst hat nofun h.returned
  · next hinit henq =>
    cases hp
    refine h.keep hst hat fun r hr henq' => henq'.own h.sound hst hat ?_
    rintro pinned affinity rfl
    exact absurd hr (henq _ _ _ _ _ rfl)

theorem Launching.step {a : SpawnAct n cap hosts} (hst : Spawner.step a s = some s') :
    Launching s' := by
  -- a step of the runtime at none of the calls of an owner
  have hquiet {a : Act n hosts} {rt' : Machine n cap hosts}
      (hst : Machine.step a s.rt = some rt') (hat : ∀ t, a = .run t → s.rt.atCall t = none) :
      Launching { s with rt := rt' } := by
    refine h.of_step hst (fun o r hr => ?_) h.returned
    obtain ⟨hgood, henq⟩ := h.launched o r hr
    refine ⟨hgood, henq.other h.sound hst fun t c' ha hc => ?_⟩
    rw [hat t ha] at hc
    cases hc
  cases a with
  | act a =>
    by_cases hrun : ∃ t, a = .run t
    · obtain ⟨t, rfl⟩ := hrun
      obtain ⟨rt', hst', hp⟩ := Option.bind_eq_some_iff.mp hst
      cases hat : s.rt.atCall t with
      | none =>
        rw [hat] at hp
        cases hp
        exact hquiet hst' (by rintro _ ⟨⟩; exact hat)
      | some p =>
        simp only [hat] at hp
        exact h.proceed hst' hat hp
    · have hmap : (Machine.step a s.rt).map (fun rt' => { s with rt := rt' }) = some s' := by
        cases a with
        | run t => exact absurd ⟨t, rfl⟩ hrun
        | _ => exact hst
      obtain ⟨rt', hst', rfl⟩ := Option.map_eq_some_iff.mp hmap
      exact hquiet hst' fun t ha => absurd ⟨t, ha⟩ hrun
  | loadGen o =>
    simp only [Spawner.step] at hst
    split at hst
    · next r hr =>
      rw [Option.ite_none_right_eq_some] at hst
      obtain ⟨-, heq⟩ := hst
      cases heq
      refine ⟨h.sound, h.outside, fun o' r' hr' => ?_, h.returned⟩
      rcases eq_or_ne o' o with rfl | ho
      · -- the generation is still the one of the new fiber
        obtain ⟨hgood, henq⟩ := h.launched o' r hr
        simp only [Spawner.set, Function.update_self, Option.some.injEq] at hr'
        subst hr'
        refine ⟨⟨hgood.ctxId, hgood.originCore, ?_, hgood.core⟩, ⟨henq.call, henq.generation⟩⟩
        rintro _ ⟨⟩
        exact henq.generation
      · simp only [Spawner.set, Function.update_of_ne ho] at hr'
        exact h.launched o' r' hr'
    · cases hst

end

theorem launching_new (topology : TopologyMode) : Launching (new n cap hosts topology) where
  sound := sound_new topology
  outside _ hi := claims_outside topology hi
  launched := nofun
  returned := nofun

theorem launching {ok : Spawner n cap hosts → SpawnAct n cap hosts → Prop}
    {tr : List (SpawnAct n cap hosts)} (h : Run Initial step ok tr s) : Launching s := by
  refine Run.invariant (I := fun _ s => Launching s) ?_ (fun _ _ _ _ hI _ hst => hI.step hst) h
  rintro _ ⟨topology, rfl⟩
  exact launching_new topology

/-! ## Returned handles -/

/-- The handle, decoded as `dtact_await` and `yield_to` do, is one of the fiber it was returned
for. -/
structure Identifies (r : Launched) : Prop where
  valid : isValid r.handle
  awaitTarget : awaitTarget r.handle = r.ctxId
  yieldTarget : yieldTarget r.handle = r.ctxId
  core : yieldCore r.handle = r.originCore
  generation : awaitGeneration r.handle = r.generation % 2 ^ 15

/-- A bit of the core beyond the 16 it has room for gets into the generation. -/
def Spills (r : Launched) : Prop :=
  ∃ j < 15, r.currentCore.testBit (16 + j) ∧ r.generation.testBit j = false

/-- With a core of 16 bits nothing does. -/
theorem not_spills_of_lt (h : r.currentCore < 2 ^ 16) : ¬ Spills r := by
  rintro ⟨j, _, hbit, _⟩
  rw [Nat.testBit_lt_two_pow (h.trans_le (Nat.pow_le_pow_right (by decide) (by omega)))] at hbit
  cases hbit

theorem generation_eq_iff :
    (r.currentCore >>> 16 ||| r.generation) % 2 ^ 15 = r.generation % 2 ^ 15 ↔ ¬ Spills r := by
  have hbits : (r.currentCore >>> 16 ||| r.generation) % 2 ^ 15 = r.generation % 2 ^ 15 ↔
      ∀ j < 15, (r.currentCore.testBit (16 + j) || r.generation.testBit j) =
        r.generation.testBit j := by
    refine ⟨fun heq j hj => ?_, fun h => Nat.eq_of_testBit_eq fun j => ?_⟩
    · have hbit := congrArg (Nat.testBit · j) heq
      simpa only [Nat.testBit_mod_two_pow, hj, Nat.testBit_or, Nat.testBit_shiftRight, decide_true,
        Bool.true_and] using hbit
    · rw [Nat.testBit_mod_two_pow, Nat.testBit_mod_two_pow, Nat.testBit_or,
        Nat.testBit_shiftRight]
      by_cases hj : j < 15
      · rw [h j hj]
      · simp [hj]
  rw [hbits, Spills]
  constructor
  · rintro h ⟨j, hj, hcore, hgen⟩
    have hbit := h j hj
    rw [hcore, hgen] at hbit
    cases hbit
  · intro h j hj
    cases hcore : r.currentCore.testBit (16 + j) with
    | false => rfl
    | true =>
      cases hgen : r.generation.testBit j with
      | true => rfl
      | false => exact absurd ⟨j, hj, hcore, hgen⟩ h

/-- **Handles identify their fiber.** For every number of workers, contexts and other threads and
every interleaving, also with the new fiber: a handle that was returned is valid and decodes to the
context, the origin core and the generation of its fiber exactly if it does not come from
`spawn_with_stack` and its core does not spill over into the generation. -/
theorem handle_identifies_iff (hcap : cap ≤ 2 ^ 32) {tr : List (SpawnAct n cap hosts)}
    (h : Run Initial step Free tr s) (hr : r ∈ s.returned) :
    Identifies r ↔ r.launch ≠ .withStack ∧ ¬ Spills r := by
  obtain ⟨hgood, hready⟩ := (launching h).returned r hr
  have hctx : r.ctxId < 2 ^ 32 := hgood.ctxId.trans_le hcap
  by_cases hl : r.launch = .withStack
  · -- the valid bit is missing
    refine ⟨fun hid => ?_, fun hne => absurd hl hne.1⟩
    have hvalid := hid.valid
    rw [handle_withStack hl, isValid_stack hctx (hgood.core hl)] at hvalid
    cases hvalid
  · obtain ⟨g, hg⟩ : ∃ g, r.gen = some g := by
      simpa [Launched.ready, hl, Option.isSome_iff_exists] using hready
    obtain rfl := hgood.gen g hg
    have hhandle := handle_pack hl hg
    rw [← generation_eq_iff]
    refine ⟨fun hid => ⟨hl, ?_⟩, fun hgen => ?_⟩
    · rw [← hid.generation, hhandle, awaitGeneration_pack hctx]
    · refine ⟨?_, ?_, ?_, ?_, ?_⟩ <;> rw [hhandle]
      · exact isValid_pack
      · rw [awaitTarget_eq, yieldTarget_pack hctx]
      · exact yieldTarget_pack hctx
      · rw [yieldCore_pack hctx, hgood.originCore]
      · rw [awaitGeneration_pack hctx, hgen.2]

/-- A host launches a fiber, which returns; its context is freed. -/
def launchAndFree : List (SpawnAct 1 1 1) :=
  [.act (.user (.host 0) (.spawn .fiberLaunch 0)), .act (.run (.host 0)), .act (.run (.host 0)),
    .loadGen (.host 0), .act (.run (.host 0)), .act (.poll 0), .act (.dispatch 0),
    .act (.user (.fiber 0) .finish), .act (.run (.fiber 0)), .act (.run (.fiber 0)),
    .act (.run (.fiber 0)), .act (.settle 0), .act (.settle 0), .act (.settle 0), .act (.settle 0)]

def firstLaunched : Launched := ⟨.fiberLaunch, 0, 0, some 0, 0, 0⟩

theorem handle_identifies_iff_fiberLaunch : ∃ s : Spawner 1 1 1,
    Run Initial step Free launchAndFree.reverse s ∧ firstLaunched ∈ s.returned ∧
      Identifies firstLaunched := by
  obtain ⟨s, hrun, hreturned⟩ : ∃ s, Run Initial step Free launchAndFree.reverse s ∧
      s.returned = [firstLaunched] :=
    Run.exists_of_exec launchAndFree (new 1 1 1 .p2pMesh) ⟨.p2pMesh, rfl⟩ (by decide +kernel)
  have hmem : firstLaunched ∈ s.returned := by
    rw [hreturned]
    exact List.mem_singleton.mpr rfl
  refine ⟨s, hrun, hmem, (handle_identifies_iff (by decide) hrun hmem).mpr ⟨nofun, ?_⟩⟩
  exact not_spills_of_lt (by decide)

/-- After it a fiber is created with `spawn_with_stack`, in the same context. -/
def thenWithStack : List (SpawnAct 1 1 1) :=
  launchAndFree ++ [.act (.user (.host 0) (.spawn .withStack 0)), .act (.run (.host 0)),
    .act (.run (.host 0)), .act (.run (.host 0))]

def withStackLaunched : Launched := ⟨.withStack, 0, 0, none, 0, 1⟩

/-- The handle is not valid, and its generation is the one of the fiber before: `dtact_await` takes
the new fiber for gone. -/
theorem stack_handle_invalid : ∃ s : Spawner 1 1 1,
    Run Initial step Free thenWithStack.reverse s ∧ withStackLaunched ∈ s.returned ∧
      isValid withStackLaunched.handle = false ∧
      awaitGeneration withStackLaunched.handle ≠ withStackLaunched.generation % 2 ^ 15 ∧
      (s.rt.shared.ctx 0).generation = withStackLaunched.generation ∧
      (s.rt.shared.ctx 0).state = .running := by
  obtain ⟨s, hrun, hreturned, hgen, hstate⟩ : ∃ s, Run Initial step Free thenWithStack.reverse s ∧
      s.returned = [withStackLaunched, firstLaunched] ∧ (s.rt.shared.ctx 0).generation = 1 ∧
      (s.rt.shared.ctx 0).state = .running :=
    Run.exists_of_exec thenWithStack (new 1 1 1 .p2pMesh) ⟨.p2pMesh, rfl⟩ (by decide +kernel)
  refine ⟨s, hrun, ?_, by decide, by decide, hgen, hstate⟩
  rw [hreturned]
  exact List.mem_cons_self

end Spawner

end Dtact.Runtime
