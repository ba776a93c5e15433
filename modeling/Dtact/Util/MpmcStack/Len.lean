import Mathlib.Order.Interval.Finset.Nat
import Dtact.Lib.Bags
import Dtact.Util.MpmcStack.Pop

/-!
# `MpmcStack`: `len`

`push` adds one to the counter after its CAS and `pop` subtracts one; `drain_all` stores zero after
it has walked its chain, and `drain_into_vec_deque` does not touch the counter.
-/

namespace Dtact.MpmcLen

open Transition LinkedHeap MpmcPop
open MpmcStack (Stack PushPc pushStep DrainPc drainStep)

variable {T ι : Type}

structure St (T ι : Type) where
  base : MpmcPop.St T ι
  /-- Where a thread is in `drain_into_vec_deque`, and its buffer. -/
  into : ι → DrainPc
  target : ι → List T

def St.new : St T ι := ⟨.new, fun _ => .idle, fun _ => []⟩

inductive Act (T ι : Type)
  /-- A call of `push`, `pop` or `drain_all`, or a step of such a call. -/
  | call (a : MpmcPop.Act T ι)
  | drainIntoVecDeque (i : ι)
  | runInto (i : ι)

def thread : MpmcPop.Act T ι → ι
  | .push i _ _ | .pop i | .drainAll i | .run i _ => i

/-- `Box::new` returns a word that is not null. -/
def placed : MpmcPop.Act T ι → Bool
  | .push _ addr _ => 0 < addr ∧ addr < usizeMod
  | .pop _ | .drainAll _ | .run _ _ => true

section

variable [DecidableEq ι]

def step (a : Act T ι) (s : St T ι) : Option (St T ι) :=
  match a with
  | .call a =>
    match s.into (thread a), placed a with
    | .idle, true => (MpmcPop.step a s.base).map fun base => { s with base }
    | _, _ => none
  | .drainIntoVecDeque i =>
    match s.base.pc i, s.into i with
    | .idle, .idle => some { s with into := Function.update s.into i .swap }
    | _, _ => none
  | .runInto i =>
    (drainStep s.base.stack (s.target i) (s.into i)).map fun p =>
      { base := { s.base with stack := p.2.1 }
        into := Function.update s.into i p.1
        target := Function.update s.target i p.2.2 }

/-! ## The property and the condition -/

def St.Rest (s : St T ι) : Prop := ∀ i, s.base.pc i = .idle ∧ s.into i = .idle

/-- `len()` is the number of elements in the stack. -/
def St.Exact (s : St T ι) : Prop :=
  ∃ nodes, Chain s.base.stack.heap s.base.stack.head nodes ∧ s.base.stack.len = nodes.length

/-- To store zero is to subtract what the drain has taken. -/
def Resets (len : Nat) : Pc T → Prop
  | .drain (.len out) => len = out.length
  | _ => True

def TakesNothing (head : Option Nat) : DrainPc → Prop
  | .swap => head = none
  | _ => True

/-- Beside the condition of `stack_linearizable`: a store of zero is exact, and
`drain_into_vec_deque` finds an empty stack. -/
def Counts (s : St T ι) : Act T ι → Prop
  | .call a => Exclusive s.base a ∧ Resets s.base.stack.len (s.base.pc (thread a))
  | .runInto i => TakesNothing s.base.stack.head (s.into i)
  | .drainIntoVecDeque _ => True

abbrev LenRun (ok : St T ι → Act T ι → Prop) : List (Act T ι) → St T ι → Prop :=
  Run (· = St.new) step ok

/-! ## What the threads owe the counter -/

/-- What is to be added to the counter until the call of a thread is over. -/
def owes (h : Hist T ι) (i : ι) : Pc T → Int
  | .push .len => 1
  | .pop (.len _) => -1
  | .drain (.walk _ _) | .drain (.len _) => (h.returned i).length - (taken h.removed i).length
  | _ => 0

def Balanced (s : MpmcPop.St T ι) (h : Hist T ι) : Prop :=
  ∃ threads : Finset ι, (∀ i ∉ threads, s.pc i = .idle) ∧
    s.stack.len + ∑ i ∈ threads, owes h i (s.pc i) ≡ h.contents.length [ZMOD usizeMod]

variable {s s' : MpmcPop.St T ι} {h h' : Hist T ι} {i : ι}

theorem Balanced.moved {p : Pc T × Stack T} (hbal : Balanced s h)
    (hother : ∀ j, j ≠ i → ∀ pc, owes h' j pc = owes h j pc)
    (hself : p.2.len + owes h' i p.1 + h.contents.length ≡
      s.stack.len + owes h i (s.pc i) + h'.contents.length [ZMOD usizeMod]) :
    Balanced (s.moved i p) h' := by
  obtain ⟨threads, hidle, hsum⟩ := hbal
  refine ⟨insert i threads, fun j hj => ?_, ?_⟩
  · rw [Finset.mem_insert, not_or] at hj
    exact (Function.update_of_ne hj.1 _ _).trans (hidle j hj.2)
  · have hgrow : ∑ j ∈ insert i threads, owes h j (s.pc j) =
        ∑ j ∈ threads, owes h j (s.pc j) := by
      refine Finset.sum_insert_of_eq_zero_if_notMem fun hi => ?_
      rw [hidle i hi]
      rfl
    have hupdate : ∑ j ∈ insert i threads, owes h' j ((s.moved i p).pc j) =
        ∑ j ∈ insert i threads,
          Function.update (fun j => owes h j (s.pc j)) i (owes h' i p.1) j := by
      refine Finset.sum_congr rfl fun j _ => ?_
      rcases eq_or_ne j i with rfl | hne
      · simp only [St.moved, Function.update_self]
      · simp only [St.moved, Function.update_of_ne hne, hother j hne]
    have hchange := Bags.sum_update (fun j => owes h j (s.pc j)) id
      (Finset.mem_insert_self i threads) (owes h' i p.1)
    simp only [id] at hchange
    rw [hgrow] at hchange
    rw [hupdate]
    simp only [Int.ModEq, usizeMod, St.moved] at hself hsum ⊢
    omega

theorem Balanced.at_rest (hbal : Balanced s h) (hrest : ∀ i, s.pc i = .idle) :
    s.stack.len ≡ h.contents.length [ZMOD usizeMod] := by
  obtain ⟨threads, -, hsum⟩ := hbal
  have hzero : ∑ i ∈ threads, owes h i (s.pc i) = 0 :=
    Finset.sum_eq_zero fun i _ => by rw [hrest i]; rfl
  rwa [hzero, add_zero] at hsum

theorem owes_congr {j : ι} {pc : Pc T} (htaken : taken h'.removed j = taken h.removed j)
    (hreturned : h'.returned j = h.returned j) : owes h' j pc = owes h j pc := by
  unfold owes
  rw [htaken, hreturned]

variable {nodes : List (Nat × T)} {own : ι → List (Nat × T)} {due : ι → List T}

/-- A drain owes what it has taken and not yet returned. -/
theorem returned_sub_taken (hinv : Inv nodes own due s h) :
    ((h.returned i).length : Int) - (taken h.removed i).length = -(due i).length := by
  rw [hinv.owed i, List.length_append]
  omega

theorem Balanced.push {pc : PushPc} {spurious : Bool} {q : PushPc × Stack T} (hbal : Balanced s h)
    (hinv : Inv nodes own due s h) (hat : s.pc i = .push pc)
    (hstep : pushStep spurious s.stack pc = some q) :
    Balanced (s.moved i (.ofPush q.1, q.2)) (updPush i spurious s.stack h pc) := by
  have hpc := hinv.pc i
  rw [hat] at hpc
  cases pc with
  | idle | fault => cases hstep
  | load node =>
    cases hstep
    exact hbal.moved (fun _ _ _ => rfl) (by rw [hat]; rfl)
  | link node head =>
    obtain ⟨x, next, -, hnode, -⟩ := hpc.1
    simp only [pushStep, hnode, Option.some.injEq] at hstep
    subst hstep
    exact hbal.moved (fun _ _ _ => rfl) (by rw [hat]; rfl)
  | cas node head =>
    obtain ⟨x, -, -, harg⟩ := hpc.1
    by_cases hcas : s.stack.head = head ∧ spurious = false
    · simp only [pushStep, hcas, and_self, if_true, Option.some.injEq] at hstep
      subst hstep
      simp only [updPush, hcas, and_self, if_true]
      refine hbal.moved (fun _ _ _ => rfl) ?_
      simp only [hat, Hist.push, harg, owes, Pc.ofPush, Option.toList_some, List.singleton_append,
        List.length_cons, Int.ModEq]
      congr 1
      omega
    · simp only [pushStep, hcas, if_false, Option.some.injEq] at hstep
      subst hstep
      simp only [updPush, hcas, if_false]
      exact hbal.moved (fun _ _ _ => rfl) (by rw [hat]; rfl)
  | len =>
    cases hstep
    refine hbal.moved (fun _ _ _ => rfl) ?_
    simp only [hat, owes, Pc.ofPush, updPush, wrappingAdd, Int.ModEq, usizeMod]
    omega

theorem owes_loop (head : Option Nat) : owes h i (.loop head) = 0 := by
  cases head <;> rfl

theorem Balanced.pop {pc : PopPc} {spurious : Bool} (hbal : Balanced s h)
    (hinv : Inv nodes own due s h) (hat : s.pc i = .pop pc) :
    Balanced (s.moved i (popStep spurious s.stack pc)) (updPop i spurious s.stack h pc) := by
  have hpc := hinv.pc i
  rw [hat] at hpc
  cases pc with
  | load =>
    refine hbal.moved (fun _ _ _ => rfl) ?_
    rw [hat, popStep, owes_loop]
    rfl
  | next head =>
    obtain ⟨node, hnode⟩ := Option.ne_none_iff_exists'.mp (hinv.chain.ne_none hpc.2.2)
    simp only [popStep, hnode]
    exact hbal.moved (fun _ _ _ => rfl) (by rw [hat]; rfl)
  | cas head next =>
    by_cases hcas : s.stack.head = some head ∧ spurious = false
    · simp only [popStep, updPop, hcas, and_self, if_true]
      have hchain := hinv.chain
      rw [hcas.1] at hchain
      obtain ⟨x, next', l, rfl, -, -⟩ := hchain.exists_cons
      have hcontents : h.contents = x :: l.map Prod.snd := hinv.contents.symm
      refine hbal.moved (fun j hj _ => owes_congr (taken_append_of_ne hj _ _) rfl) ?_
      simp only [hat, Hist.take, hcontents, owes, List.drop_succ_cons, List.drop_zero,
        List.length_cons, Int.ModEq]
      congr 1
      omega
    · simp only [popStep, updPop, hcas, if_false]
      refine hbal.moved (fun _ _ _ => rfl) ?_
      rw [hat, owes_loop]
      rfl
  | len head =>
    refine hbal.moved (fun _ _ _ => rfl) ?_
    simp only [hat, owes, popStep, updPop, wrappingSub, Int.ModEq, usizeMod]
    omega
  | take head =>
    obtain ⟨x, next, -, hnode, -⟩ := hpc
    simp only [popStep, updPop, hnode]
    refine hbal.moved (fun j hj _ => owes_congr rfl (Function.update_of_ne hj _ _)) ?_
    rw [hat]
    rfl

theorem Balanced.drain {pc : DrainAllPc T} (hbal : Balanced s h) (hinv : Inv nodes own due s h)
    (hat : s.pc i = .drain pc) (hresets : Resets s.stack.len (.drain pc)) :
    Balanced (s.moved i (drainAllStep s.stack pc)) (updDrain i h pc) := by
  have hpc := hinv.pc i
  rw [hat] at hpc
  have howes := returned_sub_taken (i := i) hinv
  cases pc with
  | swap =>
    refine hbal.moved (fun j hj _ => owes_congr (taken_append_of_ne hj _ _) rfl) ?_
    have hnone : due i = [] := hpc.2
    rw [hnone] at howes
    simp only [hat, drainAllStep, updDrain, Hist.take, owes, taken_append_self, List.length_append,
      List.length_reverse, List.length_nil, Int.ModEq] at howes ⊢
    push_cast
    congr 1
    omega
  | walk head out =>
    cases head with
    | none => exact hbal.moved (fun _ _ _ => rfl) (by rw [hat]; rfl)
    | some a =>
      obtain ⟨x, next, l, -, hnode, -⟩ := hpc.1.exists_cons
      simp only [drainAllStep, updDrain, hnode]
      exact hbal.moved (fun _ _ _ => rfl) (by rw [hat]; rfl)
  | len out =>
    have hlen : s.stack.len = out.length := hresets
    rw [hpc.2, List.length_reverse] at howes
    refine hbal.moved (fun j hj _ => owes_congr rfl (Function.update_of_ne hj _ _)) ?_
    simp only [hat, drainAllStep, updDrain, Hist.return, owes, howes, hlen, Int.ModEq]
    congr 1
    omega

theorem Balanced.step {a : MpmcPop.Act T ι} (hbal : Balanced s h) (hinv : Inv nodes own due s h)
    (hresets : Resets s.stack.len (s.pc (thread a))) (hstep : MpmcPop.step a s = some s') :
    Balanced s' (upd a s h) := by
  cases a with
  | push i a value =>
    simp only [MpmcPop.step] at hstep
    split at hstep
    case h_1 hidle =>
      obtain ⟨q, halloc, rfl⟩ := Option.map_eq_some_iff.mp hstep
      obtain ⟨-, rfl⟩ := Option.ite_none_right_eq_some.mp halloc |>.imp_right Option.some.inj
      exact hbal.moved (fun _ _ _ => rfl) (by rw [hidle]; rfl)
    case h_2 => cases hstep
  | pop i | drainAll i =>
    simp only [MpmcPop.step] at hstep
    split at hstep
    case h_1 hidle =>
      cases hstep
      exact hbal.moved (fun _ _ _ => rfl) (by rw [hidle]; rfl)
    case h_2 => cases hstep
  | run i spurious =>
    obtain ⟨p, hrun, rfl⟩ := Option.map_eq_some_iff.mp hstep
    simp only [upd]
    generalize hat : s.pc i = pc at hrun
    cases pc with
    | idle | fault =>
      cases hrun
    | push pc =>
      obtain ⟨q, hq, rfl⟩ := Option.map_eq_some_iff.mp hrun
      exact hbal.push hinv hat hq
    | pop pc =>
      cases hrun
      exact hbal.pop hinv hat
    | drain pc =>
      cases hrun
      have hreset : Resets s.stack.len (s.pc i) := hresets
      rw [hat] at hreset
      exact hbal.drain hinv hat hreset

/-! ## Words -/

/-- The counter and the addresses in use are words, and no address is null. -/
def Words (heap : Heap Nat T) (len : Nat) : Prop :=
  len < usizeMod ∧ ∀ a, heap a ≠ none → 0 < a ∧ a < usizeMod

section

variable {heap : Heap Nat T} {len : Nat} {stack : Stack T} {spurious : Bool} {pc : Pc T}
  {p : Pc T × Stack T}

theorem Words.update {a : Nat} {node : Option (Node Nat T)} (hw : Words heap len)
    (ha : node ≠ none → 0 < a ∧ a < usizeMod) : Words (Function.update heap a node) len := by
  refine ⟨hw.1, fun b hb => ?_⟩
  rcases eq_or_ne b a with rfl | hne
  · rw [Function.update_self] at hb
    exact ha hb
  · rw [Function.update_of_ne hne] at hb
    exact hw.2 b hb

theorem Words.run (hw : Words stack.heap stack.len) (h : runPc spurious stack pc = some p) :
    Words p.2.heap p.2.len := by
  have hmod {n : Nat} : n % usizeMod < usizeMod := Nat.mod_lt _ (Nat.two_pow_pos 64)
  cases pc with
  | idle | fault => cases h
  | push pc =>
    obtain ⟨q, hq, rfl⟩ := Option.map_eq_some_iff.mp h
    cases pc with
    | idle | fault => cases hq
    | load node =>
      cases hq
      exact hw
    | link node head =>
      simp only [pushStep] at hq
      split at hq
      · next n hnode =>
        cases hq
        exact hw.update fun _ => hw.2 node (by simp [hnode])
      · cases hq
        exact hw
    | cas node head =>
      simp only [pushStep] at hq
      split_ifs at hq <;> cases hq <;> exact hw
    | len =>
      cases hq
      exact ⟨hmod, hw.2⟩
  | pop pc =>
    cases h
    cases pc with
    | load => exact hw
    | next head =>
      simp only [popStep]
      split <;> exact hw
    | cas head next =>
      simp only [popStep]
      split_ifs <;> exact hw
    | len head => exact ⟨hmod, hw.2⟩
    | take head =>
      simp only [popStep]
      split
      · exact hw.update fun h => absurd rfl h
      · exact hw
  | drain pc =>
    cases h
    cases pc with
    | swap => exact hw
    | walk head out =>
      cases head with
      | none => exact hw
      | some a =>
        simp only [drainAllStep]
        split
        · exact hw.update fun h => absurd rfl h
        · exact hw
    | len out => exact ⟨Nat.two_pow_pos 64, hw.2⟩

omit [DecidableEq ι] in
theorem Words.step {a : MpmcPop.Act T ι} [DecidableEq ι] (hw : Words s.stack.heap s.stack.len)
    (hplaced : placed a = true) (hstep : MpmcPop.step a s = some s') :
    Words s'.stack.heap s'.stack.len := by
  cases a with
  | push i a value =>
    simp only [MpmcPop.step] at hstep
    split at hstep
    case h_1 hidle =>
      obtain ⟨q, halloc, rfl⟩ := Option.map_eq_some_iff.mp hstep
      obtain ⟨-, rfl⟩ := Option.ite_none_right_eq_some.mp halloc |>.imp_right Option.some.inj
      exact hw.update fun _ => of_decide_eq_true hplaced
    case h_2 => cases hstep
  | pop i | drainAll i =>
    simp only [MpmcPop.step] at hstep
    split at hstep
    case h_1 hidle =>
      cases hstep
      exact hw
    case h_2 => cases hstep
  | run i spurious =>
    obtain ⟨p, hrun, rfl⟩ := Option.map_eq_some_iff.mp hstep
    exact hw.run hrun

/-- There are fewer nodes than addresses. -/
theorem Words.length_lt (hw : Words heap len) {p : Option Nat} {nodes : List (Nat × T)}
    (hchain : Chain heap p nodes) (hnodup : (nodes.map Prod.fst).Nodup) :
    nodes.length < usizeMod := by
  have hsub : (nodes.map Prod.fst).toFinset ⊆ Finset.Ioo 0 usizeMod := by
    intro a ha
    exact Finset.mem_Ioo.mpr (hw.2 a (hchain.ne_none (List.mem_toFinset.mp ha)))
  have hcard := Finset.card_le_card hsub
  rw [List.toFinset_card_of_nodup hnodup, Nat.card_Ioo, List.length_map] at hcard
  simp only [usizeMod] at hcard ⊢
  omega

end

/-! ## Whole runs -/

/-- A `drain_into_vec_deque` that has taken nothing. -/
def Harmless : DrainPc → Prop
  | .idle | .swap | .reverse none none | .move none => True
  | _ => False

omit [DecidableEq ι] in
theorem drain_harmless {stack : Stack T} {target : List T} {pc : DrainPc}
    {p : DrainPc × Stack T × List T} (hpc : Harmless pc) (hnone : TakesNothing stack.head pc)
    (h : drainStep stack target pc = some p) : p.2.1 = stack ∧ Harmless p.1 := by
  cases pc with
  | idle | fault => cases h
  | swap =>
    cases h
    have hhead : stack.head = none := hnone
    obtain ⟨heap, head, len⟩ := stack
    cases hhead
    exact ⟨rfl, trivial⟩
  | reverse prev current =>
    cases current with
    | none =>
      cases prev with
      | none =>
        cases h
        exact ⟨rfl, trivial⟩
      | some a => exact hpc.elim
    | some a => cases prev <;> exact hpc.elim
  | move node =>
    cases node with
    | none =>
      cases h
      exact ⟨rfl, trivial⟩
    | some a => exact hpc.elim

theorem harmless_update {into : ι → DrainPc} {i : ι} {pc : DrainPc} (h : ∀ j, Harmless (into j))
    (hpc : Harmless pc) (j : ι) : Harmless (Function.update into i pc j) := by
  rcases eq_or_ne j i with rfl | hne
  · rw [Function.update_self]
    exact hpc
  · rw [Function.update_of_ne hne]
    exact h j

structure LenInv (s : St T ι) : Prop where
  base : ∃ h nodes own due, Inv nodes own due s.base h ∧ (nodes.map Prod.fst).Nodup ∧
    Balanced s.base h
  words : Words s.base.stack.heap s.base.stack.len
  into : ∀ i, Harmless (s.into i)

theorem lenInv_new : LenInv (St.new : St T ι) where
  base := ⟨.init, _, _, _, inv_new, List.nodup_nil, ∅, fun _ _ => rfl, rfl⟩
  words := ⟨Nat.two_pow_pos 64, fun _ ha => absurd rfl ha⟩
  into := fun _ => trivial

theorem LenInv.step {s s' : St T ι} {a : Act T ι} (hinv : LenInv s) (hok : Counts s a)
    (hst : MpmcLen.step a s = some s') : LenInv s' := by
  cases a with
  | call a =>
    simp only [MpmcLen.step] at hst
    split at hst
    case h_1 hidle hplaced =>
      obtain ⟨base, hstep, rfl⟩ := Option.map_eq_some_iff.mp hst
      obtain ⟨h, nodes, own, due, hbase, -, hbal⟩ := hinv.base
      obtain ⟨nodes', own', due', hbase'⟩ := hbase.step hok.1 hstep
      have hnodup := hbase'.nodup (thread a)
      rw [List.map_append] at hnodup
      exact ⟨⟨_, _, _, _, hbase', hnodup.of_append_left, hbal.step hbase hok.2 hstep⟩,
        hinv.words.step hplaced hstep, hinv.into⟩
    case h_2 => cases hst
  | drainIntoVecDeque i =>
    simp only [MpmcLen.step] at hst
    split at hst
    case h_1 =>
      cases hst
      exact { hinv with into := harmless_update hinv.into trivial }
    case h_2 => cases hst
  | runInto i =>
    obtain ⟨p, hp, rfl⟩ := Option.map_eq_some_iff.mp hst
    obtain ⟨hstack, hharmless⟩ := drain_harmless (hinv.into i) hok hp
    simp only [hstack]
    exact ⟨hinv.base, hinv.words, harmless_update hinv.into hharmless⟩

/-- As long as every store of zero is exact and `drain_into_vec_deque` finds nothing, the counter is
exact whenever no call is in progress. -/
theorem len_exact_at_rest {tr : List (Act T ι)} {s : St T ι} (hrun : LenRun Counts tr s)
    (hrest : s.Rest) : s.Exact := by
  have hinv : LenInv s := by
    refine hrun.invariant (I := fun _ s => LenInv s) ?_ ?_
    · rintro s rfl
      exact lenInv_new
    · exact fun tr s a s' hinv hok hst => hinv.step hok hst
  obtain ⟨h, nodes, own, due, hbase, hnodup, hbal⟩ := hinv.base
  refine ⟨nodes, hbase.chain, ?_⟩
  have hmod := hbal.at_rest fun i => (hrest i).1
  rw [← hbase.contents, List.length_map, Int.natCast_modEq_iff] at hmod
  exact hmod.eq_of_lt_of_lt hinv.words.1 (hinv.words.length_lt hbase.chain hnodup)

end

/-! ## Concrete runs -/

instance (pc : Pc T) : Decidable (pc = .idle) :=
  match pc with
  | .idle => .isTrue rfl
  | .push _ | .pop _ | .drain _ | .fault => .isFalse nofun

instance (pc : DrainPc) : Decidable (pc = .idle) :=
  match pc with
  | .idle => .isTrue rfl
  | .swap | .reverse _ _ | .move _ | .fault => .isFalse nofun

instance {n : Nat} (s : St T (Fin n)) : Decidable s.Rest :=
  inferInstanceAs (Decidable (∀ i, s.base.pc i = .idle ∧ s.into i = .idle))

instance (len : Nat) : (pc : Pc T) → Decidable (Resets len pc)
  | .drain (.len out) => inferInstanceAs (Decidable (len = out.length))
  | .drain .swap | .drain (.walk _ _) | .idle | .push _ | .pop _ | .fault => .isTrue trivial

instance (head : Option Nat) : (pc : DrainPc) → Decidable (TakesNothing head pc)
  | .swap => inferInstanceAs (Decidable (head = none))
  | .idle | .reverse _ _ | .move _ | .fault => .isTrue trivial

instance {n : Nat} (s : St T (Fin n)) : (a : Act T (Fin n)) → Decidable (Counts s a)
  | .call a => inferInstanceAs (Decidable
      (Exclusive s.base a ∧ Resets s.base.stack.len (s.base.pc (thread a))))
  | .runInto i => inferInstanceAs (Decidable (TakesNothing s.base.stack.head (s.into i)))
  | .drainIntoVecDeque _ => .isTrue trivial

def drainInto (n : Nat) : List (Act Nat (Fin 2)) :=
  .drainIntoVecDeque 0 :: List.replicate n (.runInto 0)

/-- Pushes, a pop and a drain, then a `drain_into_vec_deque` that finds nothing and a push. -/
def drainedTwice : List (Act Nat (Fin 2)) :=
  pushPopDrain.map .call ++ drainInto 3 ++ (pushRun 0 10 7).map .call

theorem len_exact_at_rest_drainedTwice : ∃ s, LenRun Counts drainedTwice.reverse s ∧ s.Rest ∧
    s.base.stack.len = 1 ∧ s.Exact := by
  obtain ⟨s, hrun, hrest, hlen⟩ : ∃ s, LenRun Counts drainedTwice.reverse s ∧ s.Rest ∧
      s.base.stack.len = 1 :=
    Run.exists_of_guarded drainedTwice .new rfl (by decide +kernel)
  exact ⟨s, hrun, hrest, hlen, len_exact_at_rest hrun hrest⟩

def afterDrainInto : List (Act Nat (Fin 2)) := (pushRun 0 10 7).map .call ++ drainInto 5

/-- Thread 1 pushes between the swap of a `drain_all` and its store. -/
def pushInDrain : List (Act Nat (Fin 2)) :=
  ([MpmcPop.Act.drainAll 0] ++ steps 1 0 ++ pushRun 1 10 7 ++ steps 2 0).map .call

/-- Thread 1 drains between the CAS of a `pop` and its subtraction. -/
def drainInPop : List (Act Nat (Fin 2)) :=
  (pushRun 0 10 7 ++ [MpmcPop.Act.pop 0] ++ steps 3 0 ++ [MpmcPop.Act.drainAll 1] ++ steps 3 1 ++
    steps 2 0).map .call

theorem not_exact_of_empty {s : St T ι} (hhead : s.base.stack.head = none)
    (hlen : s.base.stack.len ≠ 0) : ¬ s.Exact := by
  rintro ⟨nodes, hchain, heq⟩
  rw [hhead] at hchain
  rw [hchain.eq_nil] at heq
  exact hlen heq

/-- The counter is one and the stack is empty; the counter is zero and the stack is not empty; the
counter has gone below zero. -/
theorem len_wrong_at_rest :
    (∃ s, LenRun Free afterDrainInto.reverse s ∧ s.Rest ∧ s.base.stack.len = 1 ∧ ¬ s.Exact) ∧
    (∃ s, LenRun Free pushInDrain.reverse s ∧ s.Rest ∧ s.base.stack.len = 0 ∧ ¬ s.Exact) ∧
    ∃ s, LenRun Free drainInPop.reverse s ∧ s.Rest ∧ s.base.stack.len = 2 ^ 64 - 1 ∧
      ¬ s.Exact := by
  refine ⟨?_, ?_, ?_⟩
  · obtain ⟨s, hrun, hrest, hhead, hlen⟩ : ∃ s, LenRun Free afterDrainInto.reverse s ∧ s.Rest ∧
        s.base.stack.head = none ∧ s.base.stack.len = 1 :=
      Run.exists_of_exec afterDrainInto .new rfl (by decide +kernel)
    exact ⟨s, hrun, hrest, hlen, not_exact_of_empty hhead (by rw [hlen]; decide)⟩
  · obtain ⟨s, hrun, hrest, hhead, hlen⟩ : ∃ s, LenRun Free pushInDrain.reverse s ∧ s.Rest ∧
        s.base.stack.head = some 10 ∧ s.base.stack.len = 0 :=
      Run.exists_of_exec pushInDrain .new rfl (by decide +kernel)
    refine ⟨s, hrun, hrest, hlen, ?_⟩
    rintro ⟨nodes, hchain, heq⟩
    rw [hhead] at hchain
    obtain ⟨x, next, l, rfl, -, -⟩ := hchain.exists_cons
    rw [hlen] at heq
    cases heq
  · obtain ⟨s, hrun, hrest, hhead, hlen⟩ : ∃ s, LenRun Free drainInPop.reverse s ∧ s.Rest ∧
        s.base.stack.head = none ∧ s.base.stack.len = 2 ^ 64 - 1 :=
      Run.exists_of_exec drainInPop .new rfl (by decide +kernel)
    exact ⟨s, hrun, hrest, hlen, not_exact_of_empty hhead (by rw [hlen]; decide)⟩

end Dtact.MpmcLen
