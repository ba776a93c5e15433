import Dtact.Lib.SaveArea
import Dtact.Runtime.SameThread

/-!
# The context switch

A fiber has two register areas: `executor_regs`, in which the worker that dispatches it leaves its
own registers, and `regs`, in which the fiber leaves its registers when it suspends itself. Both
go through the fiber's `switch_fn`. The switch functions are translated instruction by instruction,
without the prefetches; what their callers, the fibers and the workers execute between two switches
is left open.
-/

namespace Dtact.ContextSwitch

open SaveArea Transition

open Dtact.Runtime (Switcher)

/-- The registers that the switch functions name; `gs` is a word of the Windows thread
information block. -/
inductive Reg
  | pc
  | rax | rbx | rcx | rdx | rsp | rbp | rsi | rdi | r (n : Nat) | mxcsr | xmm (n : Nat)
  | gs (off : Nat)
  | sp | x (n : Nat) | d (n : Nat)
  | ra | s (n : Nat) | a (n : Nat) | fs (n : Nat)
deriving DecidableEq

/-- The targets without pointer authentication. -/
inductive Target
  | x86Unix
  | x86Windows
  | aarch64Unix
  | riscv64 (hwAcceleration : Bool)

/-! ## Calling conventions -/

namespace Target

/-- The stack pointer and the general-purpose registers that are callee-saved, with their widths
in bytes; on Windows also the stack base, the stack limit, the deallocation stack and the exception
list. -/
def calleeSaved : Target → List (Reg × Nat)
  | .x86Unix => [.rbx, .rbp, .rsp, .r 12, .r 13, .r 14, .r 15].map fun r => (r, 8)
  | .x86Windows =>
    [.rbx, .rbp, .rdi, .rsi, .rsp, .r 12, .r 13, .r 14, .r 15, .gs 0x08, .gs 0x10, .gs 0x1478,
      .gs 0x00].map fun r => (r, 8)
  | .aarch64Unix => (.sp, 8) :: (List.range' 19 11).map fun n => (.x n, 8)
  | .riscv64 _ => (.sp, 8) :: (List.range' 0 12).map fun n => (.s n, 8)

/-- The floating-point registers that are callee-saved. Of the vector registers of AArch64 these are
the low halves. The control words other than `mxcsr` are left out: no switch function names
them. -/
def floatCalleeSaved : Target → List (Reg × Nat)
  | .x86Unix => [(.mxcsr, 4)]
  | .x86Windows => (.mxcsr, 4) :: (List.range' 6 10).map fun n => (.xmm n, 16)
  | .aarch64Unix => (List.range' 8 8).map fun n => (.d n, 8)
  | .riscv64 _ => (List.range' 0 12).map fun n => (.fs n, 8)

/-- The register with the address at which the caller goes on; the x86-64 functions go on at a label
of their own and return from there. -/
def returnReg : Target → Option Reg
  | .x86Unix | .x86Windows => none
  | .aarch64Unix => some (.x 30)
  | .riscv64 _ => some .ra

/-- What a caller is to find when it goes on. -/
def kept (t : Target) (float : Bool) : List (Kept Reg) :=
  ⟨.pc, 8, t.returnReg⟩ ::
    (t.calleeSaved ++ if float then t.floatCalleeSaved else []).map fun p => ⟨p.1, p.2, some p.1⟩

theorem mem_kept {t : Target} {float : Bool} {p : Reg × Nat}
    (h : p ∈ t.calleeSaved ∨ float = true ∧ p ∈ t.floatCalleeSaved) :
    ⟨p.1, p.2, some p.1⟩ ∈ t.kept float := by
  refine List.mem_cons_of_mem _ (List.mem_map.mpr ⟨p, List.mem_append.mpr ?_, rfl⟩)
  refine h.imp_right ?_
  rintro ⟨rfl, hp⟩
  exact hp

end Target

/-! ## The switch functions -/

def saveAll (base : Reg) (width : Nat) (places : List (Reg × Nat)) : List (Instr Reg) :=
  places.map fun p => .store base p.2 width p.1

def loadAll (base : Reg) (width : Nat) (places : List (Reg × Nat)) : List (Instr Reg) :=
  places.map fun p => .load p.1 base p.2 width

/-- `n` places in a row. -/
def row (reg : Nat → Reg) (first off width n : Nat) : List (Reg × Nat) :=
  (List.range n).map fun i => (reg (first + i), off + width * i)

/-- `size_of::<Registers>()` -/
def registersSize : Nat := 16 * 8 + 512

def x86Gprs : List (Reg × Nat) := [(.rsp, 0), (.rbp, 8), (.rbx, 16)] ++ row .r 12 24 8 4

def x86Unix (float : Bool) : Switch Reg where
  code :=
    [.load .rax .rsi 0 8] ++ saveAll .rdi 8 x86Gprs ++
    (if float then [.store .rdi 64 4 .mxcsr] else []) ++
    [.label .rax, .store .rdi 56 8 .rax] ++
    (if float then [.load .mxcsr .rsi 64 4] else []) ++
    loadAll .rsi 8 x86Gprs ++ [.load .pc .rsi 56 8]
  save := .rdi
  restore := .rsi
  size := registersSize

def windowsGprs : List (Reg × Nat) := x86Gprs ++ [(.rdi, 64), (.rsi, 72)]

/-- The stack base, the stack limit, the deallocation stack and the exception list. -/
def tib : List (Reg × Nat) := [(.gs 0x08, 80), (.gs 0x10, 88), (.gs 0x1478, 96), (.gs 0x00, 104)]

def xmms : List (Reg × Nat) := row .xmm 6 128 16 10

def x86Windows (float : Bool) : Switch Reg where
  code :=
    [.load .rax .rdx 0 8] ++ saveAll .rcx 8 windowsGprs ++
    tib.flatMap (fun p => [.mov .rax p.1, .store .rcx p.2 8 .rax]) ++
    (if float then .store .rcx 112 4 .mxcsr :: saveAll .rcx 16 xmms else []) ++
    [.label .rax, .store .rcx 56 8 .rax] ++
    (if float then loadAll .rdx 16 xmms ++ [.load .mxcsr .rdx 112 4] else []) ++
    tib.flatMap (fun p => [.load .rax .rdx p.2 8, .mov p.1 .rax]) ++
    loadAll .rdx 8 windowsGprs ++ [.load .pc .rdx 56 8]
  save := .rcx
  restore := .rdx
  size := registersSize

def armGprs : List (Reg × Nat) := row .x 19 0 8 12

def armFprs (float : Bool) : List (Reg × Nat) := if float then row .d 8 128 8 8 else []

/-- A pair is stored and loaded by one instruction; `ret` jumps to `x30`. -/
def aarch64Unix (float : Bool) : Switch Reg where
  code :=
    [.load (.x 9) (.x 1) 96 8] ++ saveAll (.x 0) 8 armGprs ++
    [.mov (.x 9) .sp, .store (.x 0) 96 8 (.x 9)] ++ saveAll (.x 0) 8 (armFprs float) ++
    loadAll (.x 1) 8 armGprs ++ [.load (.x 9) (.x 1) 96 8, .mov .sp (.x 9)] ++
    loadAll (.x 1) 8 (armFprs float) ++ [.mov .pc (.x 30)]
  save := .x 0
  restore := .x 1
  size := registersSize

def riscvRegs (float : Bool) : List (Reg × Nat) :=
  [(.sp, 0)] ++ row .s 0 8 8 12 ++ [(.ra, 104)] ++ if float then row .fs 0 128 8 12 else []

def riscv64 (hwAcceleration float : Bool) : Switch Reg where
  code :=
    (if hwAcceleration then [.load (.a 2) (.a 1) 0 8] else []) ++
    saveAll (.a 0) 8 (riscvRegs float) ++ loadAll (.a 1) 8 (riscvRegs float) ++ [.mov .pc .ra]
  save := .a 0
  restore := .a 1
  size := registersSize

def switchContext (target : Target) (float : Bool) : Switch Reg :=
  match target with
  | .x86Unix => x86Unix float
  | .x86Windows => x86Windows float
  | .aarch64Unix => aarch64Unix float
  | .riscv64 hwAcceleration => riscv64 hwAcceleration float

def switchContextCrossThreadFloat (t : Target) : Switch Reg := switchContext t true
def switchContextCrossThreadNoFloat (t : Target) : Switch Reg := switchContext t false
def switchContextSameThreadFloat (t : Target) : Switch Reg := switchContext t true
def switchContextSameThreadNoFloat (t : Target) : Switch Reg := switchContext t false

/-- `ContextSwitcher::SWITCH_FN` -/
def switchFn (t : Target) : Switcher → Switch Reg
  | .crossThreadFloat => switchContextCrossThreadFloat t
  | .crossThreadNoFloat => switchContextCrossThreadNoFloat t
  | .sameThreadFloat => switchContextSameThreadFloat t
  | .sameThreadNoFloat => switchContextSameThreadNoFloat t

theorem switchContext_check (t : Target) (float : Bool) :
    (switchContext t float).check (t.kept float) := by
  cases t with
  | riscv64 hw =>
    revert hw float
    decide
  | x86Unix | x86Windows | aarch64Unix =>
    revert float
    decide

theorem switchFn_size (t : Target) (sw : Switcher) : (switchFn t sw).size = registersSize := by
  cases sw <;> cases t <;> rfl

/-- The switch functions that save the floating-point registers. -/
def keepsFloat : Switcher → Bool
  | .crossThreadFloat | .sameThreadFloat => true
  | .crossThreadNoFloat | .sameThreadNoFloat => false

theorem switchFn_check (t : Target) (sw : Switcher) :
    (switchFn t sw).check (t.kept (keepsFloat sw)) := by
  cases sw <;> exact switchContext_check t _

/-! ## Workers and fibers -/

/-- The contexts in memory. `area f true` is the address of the `executor_regs` of the fiber `f`,
`area f false` that of its `regs`; `label` is the address of the label in a switch function. -/
structure Layout (F : Type) where
  target : Target
  addr : Bytes → Nat
  label : Switcher → Bytes
  area : F → Bool → Nat
  apart : ∀ f e g e', (f, e) ≠ (g, e') → ∀ j < registersSize, ∀ k < registersSize,
    area f e + j ≠ area g e' + k

/-- The registers are history: those with which the worker, or the fiber, called `switch_fn`. -/
inductive Phase (W : Type)
  /-- Not dispatched yet, or finished. -/
  | idle
  | running (w : W) (called : Reg → Bytes)
  | suspended (left : Reg → Bytes)

/-- The area in use, and the registers that are in it. -/
def Phase.saved {W : Type} : Phase W → Option (Bool × (Reg → Bytes))
  | .idle => none
  | .running _ called => some (true, called)
  | .suspended left => some (false, left)

structure St (W F : Type) where
  mem : Nat → UInt8
  reg : W → Reg → Bytes
  switcher : F → Switcher
  phase : F → Phase W

/-- `other` is what a worker, or the fiber on it, executes between two switches. -/
inductive Act (W F : Type)
  | other (w : W) (reg : Reg → Bytes) (mem : Nat → UInt8)
  | spawn (f : F) (sw : Switcher)
  | dispatch (w : W) (f : F)
  | suspend (f : F)

variable {W F : Type} [DecidableEq W] [DecidableEq F] (L : Layout F)

def St.fn (s : St W F) (f : F) : Switch Reg := switchFn L.target (s.switcher f)

/-- The worker executes the switch function of the fiber. -/
def St.switch (s : St W F) (w : W) (f : F) (phase : Phase W) : St W F :=
  let m := Machine.exec L.addr (L.label (s.switcher f)) ⟨s.reg w, s.mem⟩ (s.fn L f).code
  { s with
    mem := m.mem
    reg := Function.update s.reg w m.reg
    phase := Function.update s.phase f phase }

def step : Act W F → St W F → Option (St W F)
  | .other w reg mem, s => some { s with mem, reg := Function.update s.reg w reg }
  | .spawn f sw, s =>
    some { s with
      switcher := Function.update s.switcher f sw
      phase := Function.update s.phase f .idle }
  | .dispatch w f, s => some (s.switch L w f (.running w (s.reg w)))
  | .suspend f, s =>
    match s.phase f with
    | .running w _ => some (s.switch L w f (.suspended (s.reg w)))
    | .idle | .suspended _ => none

/-- The switch function is called to save in the one area and to load from the other. -/
def Called (s : St W F) (w : W) (f : F) (e : Bool) : Prop :=
  (s.fn L f).Call L.addr ⟨s.reg w, s.mem⟩ (L.area f e) (L.area f !e)

/-- A fiber that runs is not dispatched again and its context is not given away, and nothing but
the switch functions writes to a register area that is in use. -/
def Proper (s : St W F) : Act W F → Prop
  | .other _ _ mem => ∀ f e regs, (s.phase f).saved = some (e, regs) → ∀ k < registersSize,
      mem (L.area f e + k) = s.mem (L.area f e + k)
  | .spawn f _ => ∀ regs, (s.phase f).saved ≠ some (true, regs)
  | .dispatch w f => (∀ regs, (s.phase f).saved ≠ some (true, regs)) ∧ Called L s w f true
  | .suspend f => ∀ w called, s.phase f = .running w called → Called L s w f false

def Initial (s : St W F) : Prop := ∀ f, s.phase f = .idle

/-- A flow of control that left through the fiber's switch function with the registers `left` goes
on with the registers `now`. The floating-point registers are kept only by the functions that
save them. -/
structure GoesOn (s : St W F) (f : F) (left now : Reg → Bytes) : Prop where
  resumes : ∀ k < 8, now .pc k = L.target.returnReg.elim (L.label (s.switcher f)) left k
  general : ∀ p ∈ L.target.calleeSaved, ∀ k < p.2, now p.1 k = left p.1 k
  float : keepsFloat (s.switcher f) = true →
    ∀ p ∈ L.target.floatCalleeSaved, ∀ k < p.2, now p.1 k = left p.1 k

/-- The area in use is as the switch function left it. -/
def Inv (s : St W F) : Prop :=
  ∀ f e regs, (s.phase f).saved = some (e, regs) → ∃ mem,
    (s.fn L f).Call L.addr ⟨regs, mem⟩ (L.area f e) (L.area f !e) ∧
    ∀ k < registersSize, s.mem (L.area f e + k) =
      (Machine.exec L.addr (L.label (s.switcher f)) ⟨regs, mem⟩ (s.fn L f).code).mem
        (L.area f e + k)

variable {L} {s s' : St W F} {w : W} {f : F} {e : Bool} {p : Phase W} {regs : Reg → Bytes}

/-- The caller of the switch function goes on with the registers that the other area is for. -/
theorem switch_loads (h : Called L s w f e) (hi : Inv L s)
    (hregs : (s.phase f).saved = some (!e, regs)) :
    GoesOn L s f regs ((s.switch L w f p).reg w) := by
  obtain ⟨mem, hcall, hmem⟩ := hi f _ regs hregs
  have hkept {e : Kept Reg} (he : e ∈ L.target.kept (keepsFloat (s.switcher f))) (k : Nat)
      (hk : k < e.width) : (s.switch L w f p).reg w e.reg k =
        e.src.elim (L.label (s.switcher f)) regs k := by
    show Function.update s.reg w _ w e.reg k = _
    rw [Function.update_self]
    refine Switch.round_trip (switchFn_check _ _) hcall h (fun k hk => hmem k ?_) he hk
    rwa [switchFn_size] at hk
  exact ⟨hkept (.head _), fun q hq => hkept (Target.mem_kept (.inl hq)),
    fun hfloat q hq => hkept (Target.mem_kept (.inr ⟨hfloat, hq⟩))⟩

/-- It leaves its registers in the area that is now in use, and no other area is touched. -/
theorem inv_switch (hi : Inv L s) (h : Called L s w f e) (hp : p.saved = some (e, s.reg w)) :
    Inv L (s.switch L w f p) := by
  intro g e' regs hg
  change (Function.update s.phase f p g).saved = _ at hg
  rcases eq_or_ne g f with rfl | hne
  · rw [Function.update_self, hp] at hg
    cases hg
    exact ⟨s.mem, h, fun _ _ => rfl⟩
  · rw [Function.update_of_ne hne] at hg
    obtain ⟨t, -, -, htr⟩ := Switch.tracks (L.label (s.switcher f)) (switchFn_check _ _) h
    obtain ⟨mem, hcall, hmem⟩ := hi g e' regs hg
    refine ⟨mem, hcall, fun k hk => (htr.frame _ fun j hj => ?_).trans (hmem k hk)⟩
    rw [switchFn_size] at hj
    exact L.apart g e' f e (fun he => hne (congrArg Prod.fst he)) k hk j hj

/-! ## The registers along a run -/

theorem inv_step {a : Act W F} (hi : Inv L s) (hok : Proper L s a) (hst : step L a s = some s') :
    Inv L s' := by
  cases a with
  | other w reg mem =>
    cases hst
    intro f e regs hf
    obtain ⟨mem₀, hcall, hmem⟩ := hi f e regs hf
    exact ⟨mem₀, hcall, fun k hk => (hok f e regs hf k hk).trans (hmem k hk)⟩
  | spawn f sw =>
    cases hst
    intro g e regs hg
    dsimp only at hg
    rcases eq_or_ne g f with rfl | hne
    · rw [Function.update_self] at hg
      cases hg
    · rw [Function.update_of_ne hne] at hg
      simp only [St.fn, Function.update_of_ne hne]
      exact hi g e regs hg
  | dispatch w f =>
    cases hst
    exact inv_switch hi hok.2 rfl
  | suspend f =>
    simp only [step] at hst
    split at hst
    · next hrun =>
      cases hst
      exact inv_switch hi (hok _ _ hrun) rfl
    · cases hst
    · cases hst

/-- In every run a fiber that is dispatched goes on with the callee-saved registers with which it
was suspended, and a worker whose fiber suspends itself with those it had at the dispatch. -/
theorem registers_restored {tr : List (Act W F)} {a : Act W F}
    (h : Run Initial (step L) (Proper L) tr s) (hok : Proper L s a)
    (hst : step L a s = some s') :
    (∀ w f left, a = .dispatch w f → s.phase f = .suspended left →
      GoesOn L s f left (s'.reg w)) ∧
    ∀ w f called, a = .suspend f → s.phase f = .running w called →
      GoesOn L s f called (s'.reg w) := by
  have hi : Inv L s := by
    refine Run.invariant (I := fun _ s => Inv L s) ?_ (fun _ _ _ _ => inv_step) h
    intro s hs f e regs hf
    rw [hs f] at hf
    cases hf
  refine ⟨fun w f left ha hleft => ?_, fun w f called ha hrun => ?_⟩
  · subst ha
    cases hst
    exact switch_loads hok.2 hi (congrArg Phase.saved hleft)
  · subst ha
    simp only [step, hrun, Option.some.injEq] at hst
    subst hst
    exact switch_loads (hok w called hrun) hi (congrArg Phase.saved hrun)

/-- One context, at address 0. -/
def oneContext : Layout Unit where
  target := .x86Unix
  addr v := if v 0 = 1 then registersSize else 0
  label _ _ := 0
  area _ e := if e then registersSize else 0
  apart f e g e' hne j hj k hk := by
    have he : e ≠ e' := fun he => hne (by rw [he])
    cases e <;> cases e' <;> simp at he ⊢ <;> omega

/-- The argument that is the address of `executor_regs`. -/
def passed (r : Reg) : Reg → Bytes := fun r' _ => if r' = r then 1 else 0

/-- A fiber is dispatched, suspends itself and is dispatched again. -/
theorem registers_restored_twice : ∃ tr s s' left,
    Run Initial (step oneContext) (Proper oneContext) tr s ∧
    step oneContext (.dispatch () ()) s = some s' ∧ s.phase () = .suspended left ∧
    GoesOn oneContext s () left (s'.reg ()) := by
  have hapart (e : Bool) := oneContext.apart () (!e) () e (by simp)
  have hother {tr s} (r : Reg) (h : Run Initial (step oneContext) (Proper oneContext) tr s) :
      Run Initial (step oneContext) (Proper oneContext) (.other () (passed r) s.mem :: tr)
        { s with reg := Function.update s.reg () (passed r) } :=
    .next h (fun _ _ _ _ _ _ => rfl) rfl
  have h₁ : Run Initial (step oneContext) (Proper oneContext) [.dispatch () ()] _ :=
    .next (s := ⟨fun _ => 0, fun _ => passed .rdi, fun _ => .crossThreadFloat, fun _ => .idle⟩)
      (.start fun _ => rfl) ⟨fun _ => nofun, rfl, rfl, hapart true⟩ rfl
  have h₂ := Run.next (hother .rsi h₁) (a := Act.suspend ())
    (fun _ _ _ => ⟨rfl, rfl, hapart false⟩) rfl
  refine ⟨_, _, _, _, hother .rdi h₂, rfl, rfl,
    (registers_restored (hother .rdi h₂) (a := Act.dispatch () ()) ?_ rfl).1 () () _ rfl rfl⟩
  exact ⟨fun _ => nofun, rfl, rfl, hapart true⟩

end Dtact.ContextSwitch
