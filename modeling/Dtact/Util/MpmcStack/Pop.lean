import Mathlib.Data.List.Basic
import Dtact.Lib.Transition
import Dtact.Util.MpmcStack

/-!
# `MpmcStack`: `pop` and `drain_all`

`pop` loads the head, reads the `next` of that node and swings the head to it with a CAS; then it
frees the node. Between the load and the CAS another thread can free the node, and a `push` can get
the same address again. The abstract stack is a list in the history.

Results:
1. `stack_linearizable`: when a node is only taken while no other pop has loaded its address, no
   thread touches a freed node and the chain from the head is the abstract stack.
2. `pop_reads_freed`: a pop reads a freed node, and a pop swings the head to one.
-/

namespace Dtact.MpmcPop

open Transition LinkedHeap
open MpmcStack (Stack PushPc pushStep)

variable {T ι : Type}

/-- Where a thread is in `pop`, named after the operation it performs next. -/
inductive PopPc
  | load
  | next (head : Nat)
  | cas (head : Nat) (next : Option Nat)
  | len (head : Nat)
  | take (head : Nat)

/-- Where a thread is in `drain_all`, with the values found so far. -/
inductive DrainAllPc (T : Type)
  | swap
  | walk (head : Option Nat) (out : List T)
  | len (out : List T)

/-- A thread is at `fault` once it has touched a node that is not in use. -/
inductive Pc (T : Type)
  | idle
  | push (pc : PushPc)
  | pop (pc : PopPc)
  | drain (pc : DrainAllPc T)
  | fault

def Pc.ofPush : PushPc → Pc T
  | .idle => .idle
  | .fault => .fault
  | pc => .push pc

/-- The test at the top of the loop of `pop`: a null head ends the call with `None`. -/
def Pc.loop : Option Nat → Pc T
  | some head => .pop (.next head)
  | none => .idle

/-- One step of `pop`. `spurious` makes the `compare_exchange_weak` fail. -/
def popStep (spurious : Bool) (s : Stack T) : PopPc → Pc T × Stack T
  | .load => (.loop s.head, s)
  | .next head =>
    match s.heap head with
    | some node => (.pop (.cas head node.next), s)
    | none => (.fault, s)
  | .cas head next =>
    if s.head = some head ∧ spurious = false then (.pop (.len head), { s with head := next })
    else (.loop s.head, s)
  | .len head => (.pop (.take head), { s with len := wrappingSub s.len 1 })
  | .take head =>
    match s.heap head with
    | some _ => (.idle, { s with heap := Function.update s.heap head none })
    | none => (.fault, s)

/-- One step of `drain_all`. An iteration of the loop is one step. -/
def drainAllStep (s : Stack T) : DrainAllPc T → Pc T × Stack T
  | .swap => (.drain (.walk s.head []), { s with head := none })
  | .walk none out => (.drain (.len out), s)
  | .walk (some head) out =>
    match s.heap head with
    | some node =>
      (.drain (.walk node.next (out ++ [node.value])),
        { s with heap := Function.update s.heap head none })
    | none => (.fault, s)
  | .len _ => (.idle, { s with len := 0 })

structure St (T ι : Type) where
  stack : Stack T
  pc : ι → Pc T

def St.new : St T ι := ⟨.new, fun _ => .idle⟩

/-- `push` begins with the allocation of its node, at an address that is not in use. -/
inductive Act (T ι : Type)
  | push (i : ι) (addr : Nat) (value : T)
  | pop (i : ι)
  | drainAll (i : ι)
  | run (i : ι) (spurious : Bool)

def runPc (spurious : Bool) (s : Stack T) : Pc T → Option (Pc T × Stack T)
  | .idle | .fault => none
  | .push pc => (pushStep spurious s pc).map fun p => (.ofPush p.1, p.2)
  | .pop pc => some (popStep spurious s pc)
  | .drain pc => some (drainAllStep s pc)

section

variable [DecidableEq ι]

def St.moved (s : St T ι) (i : ι) (p : Pc T × Stack T) : St T ι :=
  ⟨p.2, Function.update s.pc i p.1⟩

def step : Act T ι → St T ι → Option (St T ι)
  | .push i addr value, s =>
    match s.pc i with
    | .idle => (s.stack.alloc addr value).map fun p => s.moved i (.push p.1, p.2)
    | _ => none
  | .pop i, s =>
    match s.pc i with
    | .idle => some (s.moved i (.pop .load, s.stack))
    | _ => none
  | .drainAll i, s =>
    match s.pc i with
    | .idle => some (s.moved i (.drain .swap, s.stack))
    | _ => none
  | .run i spurious, s => (runPc spurious s.stack (s.pc i)).map (s.moved i)

end

/-! ## The abstract stack -/

structure Hist (T ι : Type) where
  contents : List T
  pushed : List T
  /-- The values that were taken, each with the thread that took it. -/
  removed : List (ι × T)
  /-- The value of the latest push of a thread. -/
  arg : ι → Option T
  /-- What the pops and drains of a thread have returned. -/
  returned : ι → List T

def Hist.init : Hist T ι := ⟨[], [], [], fun _ => none, fun _ => []⟩

section

variable [DecidableEq ι]

def taken (removed : List (ι × T)) (i : ι) : List T :=
  (removed.filter (·.1 = i)).map Prod.snd

def Hist.push (h : Hist T ι) (i : ι) : Hist T ι :=
  { h with contents := (h.arg i).toList ++ h.contents, pushed := (h.arg i).toList ++ h.pushed }

def Hist.take (h : Hist T ι) (i : ι) (values rest : List T) : Hist T ι :=
  { h with contents := rest, removed := values.map (i, ·) ++ h.removed }

def Hist.return (h : Hist T ι) (i : ι) (values : List T) : Hist T ι :=
  { h with returned := Function.update h.returned i (values ++ h.returned i) }

def updPush (i : ι) (spurious : Bool) (s : Stack T) (h : Hist T ι) : PushPc → Hist T ι
  | .cas _ head => if s.head = head ∧ spurious = false then h.push i else h
  | _ => h

/-- A pop that returns `None` takes and returns nothing. -/
def updPop (i : ι) (spurious : Bool) (s : Stack T) (h : Hist T ι) : PopPc → Hist T ι
  | .cas head _ =>
    if s.head = some head ∧ spurious = false then
      h.take i (h.contents.take 1) (h.contents.drop 1)
    else h
  | .take head => h.return i ((s.heap head).map Node.value).toList
  | .load | .next _ | .len _ => h

/-- `drain_all` returns the values in the order of the pushes. -/
def updDrain (i : ι) (h : Hist T ι) : DrainAllPc T → Hist T ι
  | .swap => h.take i h.contents.reverse []
  | .len out => h.return i out.reverse
  | .walk _ _ => h

def updPc (i : ι) (spurious : Bool) (s : Stack T) (h : Hist T ι) : Pc T → Hist T ι
  | .push pc => updPush i spurious s h pc
  | .pop pc => updPop i spurious s h pc
  | .drain pc => updDrain i h pc
  | .idle | .fault => h

def upd (a : Act T ι) (s : St T ι) (h : Hist T ι) : Hist T ι :=
  match a with
  | .push i _ value => { h with arg := Function.update h.arg i (some value) }
  | .run i spurious => updPc i spurious s.stack h (s.pc i)
  | .pop _ | .drainAll _ => h

/-! ## The property -/

structure Linearized (s : St T ι) (h : Hist T ι) : Prop where
  live : ∀ i, s.pc i ≠ .fault
  /-- The chain from the head is finite, its nodes are live, and it is the abstract stack. -/
  chain : ∃ nodes, Chain s.stack.heap s.stack.head nodes ∧ nodes.map Prod.snd = h.contents
  /-- A value that was pushed is in the stack or was taken by one call. -/
  conserved : h.pushed.Perm (h.removed.map Prod.snd ++ h.contents)
  /-- The calls of a thread have returned what they took. -/
  returns : ∀ i, s.pc i = .idle → h.returned i = taken h.removed i

end

/-! ## The condition -/

/-- The node whose address a pop has loaded and not yet compared. -/
def Pc.loaded : Pc T → Option Nat
  | .pop (.next head) | .pop (.cas head _) => some head
  | _ => none

def Pc.Exclusive (s : St T ι) (i : ι) (spurious : Bool) : Pc T → Prop
  | .pop (.cas head _) =>
    s.stack.head = some head ∧ spurious = false → ∀ j, j ≠ i → (s.pc j).loaded ≠ some head
  | .drain .swap => ∀ j, (s.pc j).loaded = none
  | _ => True

/-- A pop takes a node when no other pop has loaded its address, and a drain takes the nodes when
no pop has loaded an address. -/
def Exclusive (s : St T ι) : Act T ι → Prop
  | .run i spurious => (s.pc i).Exclusive s i spurious
  | .push _ _ _ | .pop _ | .drainAll _ => True

abbrev StackRun [DecidableEq ι] (ok : St T ι → Act T ι → Prop) :
    List (Act T ι) → St T ι × Hist T ι → Prop :=
  Run (initHist (· = St.new) Hist.init) (withHist step upd) fun p a => ok p.1 a

/-! ## The invariant -/

def PushOk (heap : Heap Nat T) (arg : Option T) (own : List (Nat × T)) : PushPc → Prop
  | .load node | .link node _ =>
    ∃ x next, own = [(node, x)] ∧ heap node = some ⟨x, next⟩ ∧ arg = some x
  | .cas node head => ∃ x, own = [(node, x)] ∧ heap node = some ⟨x, head⟩ ∧ arg = some x
  | .len => own = []
  | .idle | .fault => False

/-- `due` has been taken and is to be returned. -/
def PopOk (heap : Heap Nat T) (nodes own : List (Nat × T)) (due : List T) : PopPc → Prop
  | .load => own = [] ∧ due = []
  | .next head => own = [] ∧ due = [] ∧ head ∈ nodes.map Prod.fst
  | .cas head next =>
    own = [] ∧ due = [] ∧ head ∈ nodes.map Prod.fst ∧ ∃ x, heap head = some ⟨x, next⟩
  | .len head | .take head => ∃ x next, own = [(head, x)] ∧ heap head = some ⟨x, next⟩ ∧ due = [x]

def DrainOk (heap : Heap Nat T) (own : List (Nat × T)) (due : List T) : DrainAllPc T → Prop
  | .swap => own = [] ∧ due = []
  | .walk head out => Chain heap head own ∧ due = (out ++ own.map Prod.snd).reverse
  | .len out => own = [] ∧ due = out.reverse

/-- What a thread knows, with the nodes that are its own. -/
def PcOk (heap : Heap Nat T) (nodes own : List (Nat × T)) (arg : Option T) (due : List T) :
    Pc T → Prop
  | .idle => own = [] ∧ due = []
  | .push pc => PushOk heap arg own pc ∧ due = []
  | .pop pc => PopOk heap nodes own due pc
  | .drain pc => DrainOk heap own due pc
  | .fault => False

/-- `nodes` is the chain from the head, `own` are the nodes of the threads and `due` the values
they have yet to return. -/
structure Inv [DecidableEq ι] (nodes : List (Nat × T)) (own : ι → List (Nat × T))
    (due : ι → List T) (s : St T ι) (h : Hist T ι) : Prop where
  chain : Chain s.stack.heap s.stack.head nodes
  contents : nodes.map Prod.snd = h.contents
  nodup : ∀ i, ((nodes ++ own i).map Prod.fst).Nodup
  distinct : ∀ i j a, a ∈ (own i).map Prod.fst → a ∈ (own j).map Prod.fst → i = j
  pc : ∀ i, PcOk s.stack.heap nodes (own i) (h.arg i) (due i) (s.pc i)
  owed : ∀ i, taken h.removed i = due i ++ h.returned i
  conserved : h.pushed.Perm (h.removed.map Prod.snd ++ h.contents)

/-! ### What the other threads know -/

section

variable {heap heap' : Heap Nat T} {nodes nodes' own : List (Nat × T)} {arg : Option T}
  {due : List T} {pc : Pc T}

theorem PcOk.live (hpc : PcOk heap nodes own arg due pc) {a : Nat}
    (ha : a ∈ own.map Prod.fst) : heap a ≠ none := by
  cases pc with
  | idle => simp [hpc.1] at ha
  | push pc =>
    cases pc with
    | load node | link node _ =>
      obtain ⟨x, next, rfl, hnode, -⟩ := hpc.1
      simp_all
    | cas node head =>
      obtain ⟨x, rfl, hnode, -⟩ := hpc.1
      simp_all
    | len =>
      have hown : own = [] := hpc.1
      simp [hown] at ha
    | idle | fault => exact hpc.1.elim
  | pop pc =>
    cases pc with
    | load | next _ | cas _ _ => simp [hpc.1] at ha
    | len head | take head =>
      obtain ⟨x, next, rfl, hnode, -⟩ := hpc
      simp_all
  | drain pc =>
    cases pc with
    | swap | len _ => simp [hpc.1] at ha
    | walk head out => exact hpc.1.ne_none ha
  | fault => exact hpc.elim

/-- What a thread knows stays true when its nodes and the one it has loaded stay. -/
theorem PcOk.congr (hown : ∀ a ∈ own.map Prod.fst, heap' a = heap a)
    (hloaded : ∀ a, pc.loaded = some a → a ∈ nodes.map Prod.fst →
      a ∈ nodes'.map Prod.fst ∧ heap' a = heap a)
    (hpc : PcOk heap nodes own arg due pc) : PcOk heap' nodes' own arg due pc := by
  cases pc with
  | idle => exact hpc
  | push pc =>
    refine ⟨?_, hpc.2⟩
    cases pc with
    | load node | link node _ =>
      obtain ⟨x, next, rfl, hnode, harg⟩ := hpc.1
      exact ⟨x, next, rfl, (hown _ (by simp)).trans hnode, harg⟩
    | cas node head =>
      obtain ⟨x, rfl, hnode, harg⟩ := hpc.1
      exact ⟨x, rfl, (hown _ (by simp)).trans hnode, harg⟩
    | len | idle | fault => exact hpc.1
  | pop pc =>
    cases pc with
    | load => exact hpc
    | next head => exact ⟨hpc.1, hpc.2.1, (hloaded head rfl hpc.2.2).1⟩
    | cas head next =>
      obtain ⟨hnil, hdue, hmem, x, hnode⟩ := hpc
      have hstay := hloaded head rfl hmem
      exact ⟨hnil, hdue, hstay.1, x, hstay.2.trans hnode⟩
    | len head | take head =>
      obtain ⟨x, next, rfl, hnode, hdue⟩ := hpc
      exact ⟨x, next, rfl, (hown _ (by simp)).trans hnode, hdue⟩
  | drain pc =>
    cases pc with
    | swap | len _ => exact hpc
    | walk head out => exact ⟨hpc.1.congr hown, hpc.2⟩
  | fault => exact hpc

end

/-! ### One step of a thread -/

section

variable [DecidableEq ι] {s : St T ι} {h h' : Hist T ι} {nodes nodes' : List (Nat × T)}
  {own : ι → List (Nat × T)} {due : ι → List T} {i : ι}

/-- What a step of thread `i` leaves to the others: it writes only to its own nodes and to unused
addresses, and it does not take a node that another pop has loaded. -/
structure Frame (nodes nodes' own own' : List (Nat × T)) (i : ι) (s : St T ι) (stack : Stack T)
    (h h' : Hist T ι) : Prop where
  nodup : ((nodes' ++ own').map Prod.fst).Nodup
  sub : ∀ a ∈ (nodes' ++ own').map Prod.fst,
    a ∈ (nodes ++ own).map Prod.fst ∨ s.stack.heap a = none
  heap : ∀ a, a ∉ own.map Prod.fst → s.stack.heap a ≠ none → stack.heap a = s.stack.heap a
  loaded : ∀ j, j ≠ i → ∀ a, (s.pc j).loaded = some a → a ∈ nodes.map Prod.fst →
    a ∈ nodes'.map Prod.fst
  hist : ∀ j, j ≠ i → h'.arg j = h.arg j ∧ taken h'.removed j = taken h.removed j ∧
    h'.returned j = h.returned j

section

variable (hinv : Inv nodes own due s h)

include hinv

/-- A node of the stack is not a thread's own. -/
theorem Inv.apart (i : ι) {a : Nat} (ha : a ∈ nodes.map Prod.fst) : a ∉ (own i).map Prod.fst := by
  have hnodup := hinv.nodup i
  rw [List.map_append, List.nodup_append] at hnodup
  exact fun hown => hnodup.2.2 a ha a hown rfl

theorem Inv.moved {p : Pc T × Stack T} (own' : List (Nat × T)) (due' : List T)
    (hframe : Frame nodes nodes' (own i) own' i s p.2 h h')
    (hchain : Chain p.2.heap p.2.head nodes') (hcontents : nodes'.map Prod.snd = h'.contents)
    (hpc : PcOk p.2.heap nodes' own' (h'.arg i) due' p.1)
    (howed : taken h'.removed i = due' ++ h'.returned i)
    (hconserved : h'.pushed.Perm (h'.removed.map Prod.snd ++ h'.contents)) :
    Inv nodes' (Function.update own i own') (Function.update due i due') (s.moved i p) h' := by
  have hlive : ∀ j, ∀ a ∈ (own j).map Prod.fst, s.stack.heap a ≠ none :=
    fun j a ha => (hinv.pc j).live ha
  -- A node of another thread is none of those that thread `i` or the stack now has.
  have hother : ∀ j, j ≠ i → ∀ a ∈ (own j).map Prod.fst, a ∉ (nodes' ++ own').map Prod.fst := by
    intro j hj a ha hmem
    rcases hframe.sub a hmem with hold | hfree
    · rw [List.map_append, List.mem_append] at hold
      rcases hold with hnode | hown
      · exact hinv.apart j hnode ha
      · exact hj (hinv.distinct j i a ha hown)
    · exact hlive j a ha hfree
  refine ⟨hchain, hcontents, fun j => ?_, fun j k a hja hka => ?_, fun j => ?_, fun j => ?_,
    hconserved⟩
  · by_cases hj : j = i
    · subst hj
      simpa using hframe.nodup
    · have hleft := hframe.nodup
      have hright := hinv.nodup j
      rw [List.map_append, List.nodup_append] at hleft hright ⊢
      rw [Function.update_of_ne hj]
      refine ⟨hleft.1, hright.2.1, fun a ha b hb hab => ?_⟩
      subst hab
      exact hother j hj a hb (by simp only [List.map_append, List.mem_append]; exact .inl ha)
  · have hmine : ∀ a ∈ own'.map Prod.fst, a ∈ (nodes' ++ own').map Prod.fst := fun a ha => by
      simp only [List.map_append, List.mem_append]
      exact .inr ha
    by_cases hj : j = i <;> by_cases hk : k = i
    · rw [hj, hk]
    · subst hj
      rw [Function.update_self] at hja
      rw [Function.update_of_ne hk] at hka
      exact absurd (hmine a hja) (hother k hk a hka)
    · subst hk
      rw [Function.update_self] at hka
      rw [Function.update_of_ne hj] at hja
      exact absurd (hmine a hka) (hother j hj a hja)
    · rw [Function.update_of_ne hj] at hja
      rw [Function.update_of_ne hk] at hka
      exact hinv.distinct j k a hja hka
  · by_cases hj : j = i
    · subst hj
      simpa [St.moved] using hpc
    · simp only [St.moved, Function.update_of_ne hj, (hframe.hist j hj).1]
      refine (hinv.pc j).congr (fun a ha => ?_) (fun a ha hmem => ?_)
      · exact hframe.heap a (fun hown => hj (hinv.distinct j i a ha hown)) (hlive j a ha)
      · exact ⟨hframe.loaded j hj a ha hmem,
          hframe.heap a (hinv.apart i hmem) (hinv.chain.ne_none hmem)⟩
  · by_cases hj : j = i
    · subst hj
      simpa using howed
    · rw [Function.update_of_ne hj, (hframe.hist j hj).2.1, (hframe.hist j hj).2.2]
      exact hinv.owed j

theorem Inv.frame {stack : Stack T} (hheap : stack.heap = s.stack.heap)
    (hhist : ∀ j, j ≠ i → h'.arg j = h.arg j ∧ taken h'.removed j = taken h.removed j ∧
      h'.returned j = h.returned j) : Frame nodes nodes (own i) (own i) i s stack h h' where
  nodup := hinv.nodup i
  sub := fun _ ha => .inl ha
  heap := fun a _ _ => congrFun hheap a
  loaded := fun _ _ _ _ hmem => hmem
  hist := hhist

theorem Inv.stays {pc : Pc T} (len : Nat)
    (hpc : PcOk s.stack.heap nodes (own i) (h.arg i) (due i) pc) :
    Inv nodes own due (s.moved i (pc, { s.stack with len := len })) h := by
  have hframe : Frame nodes nodes (own i) (own i) i s { s.stack with len := len } h h :=
    hinv.frame rfl fun _ _ => ⟨rfl, rfl, rfl⟩
  have hmoved := hinv.moved (p := (pc, { s.stack with len := len })) (own i) (due i) hframe
    hinv.chain hinv.contents hpc (hinv.owed i) hinv.conserved
  rwa [Function.update_eq_self, Function.update_eq_self] at hmoved

end

theorem taken_append_self (values : List T) (removed : List (ι × T)) :
    taken (values.map (i, ·) ++ removed) i = values ++ taken removed i := by
  simp [taken, List.filter_map, Function.comp_def]

theorem taken_append_of_ne {j : ι} (hj : j ≠ i) (values : List T) (removed : List (ι × T)) :
    taken (values.map (i, ·) ++ removed) j = taken removed j := by
  have hne : ¬ i = j := fun hij => hj hij.symm
  simp [taken, List.filter_map, Function.comp_def, hne]

/-! ### `push` -/

section

variable (hinv : Inv nodes own due s h)

include hinv

theorem Inv.alloc {a : Nat} {value : T} {q : PushPc × Stack T} (hidle : s.pc i = .idle)
    (halloc : s.stack.alloc a value = some q) :
    ∃ own' due', Inv nodes own' due' (s.moved i (.push q.1, q.2))
      { h with arg := Function.update h.arg i (some value) } := by
  have hpc := hinv.pc i
  rw [hidle] at hpc
  obtain ⟨hown, hdue⟩ := hpc
  unfold Stack.alloc at halloc
  split at halloc
  case isFalse => cases halloc
  case isTrue hfree =>
    cases halloc
    have hfree : s.stack.heap a = none := Option.isNone_iff_eq_none.mp hfree
    have hnew : a ∉ nodes.map Prod.fst := hinv.chain.notMem_of_none hfree
    have hnodup := hinv.nodup i
    rw [hown, List.append_nil] at hnodup
    refine ⟨_, _, hinv.moved [(a, value)] [] ⟨?_, ?_, ?_, ?_, ?_⟩
      (hinv.chain.update hnew) hinv.contents ?_ ?_ hinv.conserved⟩
    · rw [List.map_append, List.nodup_append]
      refine ⟨hnodup, by simp, fun b hb c hc hbc => ?_⟩
      simp only [List.map_cons, List.map_nil, List.mem_singleton] at hc
      exact hnew (hc ▸ hbc ▸ hb)
    · intro b hb
      simp only [List.map_append, List.map_cons, List.map_nil, List.mem_append,
        List.mem_singleton] at hb
      rcases hb with hb | rfl
      · exact .inl (by simp only [List.map_append, List.mem_append]; exact .inl hb)
      · exact .inr hfree
    · intro b _ hb
      exact Function.update_of_ne (by rintro rfl; exact hb hfree) _ _
    · exact fun _ _ _ _ hmem => hmem
    · exact fun j hj => ⟨Function.update_of_ne hj _ _, rfl, rfl⟩
    · exact ⟨⟨value, none, rfl, Function.update_self .., Function.update_self ..⟩, rfl⟩
    · rw [hinv.owed i, hdue]

theorem Inv.push {pc : PushPc} {spurious : Bool} {q : PushPc × Stack T} (hat : s.pc i = .push pc)
    (hstep : pushStep spurious s.stack pc = some q) :
    ∃ nodes' own' due', Inv nodes' own' due' (s.moved i (.ofPush q.1, q.2))
      (updPush i spurious s.stack h pc) := by
  have hpc := hinv.pc i
  rw [hat] at hpc
  obtain ⟨hpc, hdue⟩ := hpc
  cases pc with
  | idle | fault => cases hstep
  | load node =>
    cases hstep
    exact ⟨_, _, _, hinv.stays s.stack.len ⟨hpc, hdue⟩⟩
  | link node head =>
    obtain ⟨x, next, hown, hnode, harg⟩ := hpc
    simp only [pushStep, hnode, Option.some.injEq] at hstep
    subst hstep
    have hout : node ∉ nodes.map Prod.fst := fun hmem => hinv.apart i hmem (by simp [hown])
    refine ⟨_, _, _, hinv.moved (own i) []
      ⟨hinv.nodup i, fun _ ha => .inl ha, fun a ha _ => ?_, fun _ _ _ _ hmem => hmem,
        fun _ _ => ⟨rfl, rfl, rfl⟩⟩
      (hinv.chain.update hout) hinv.contents ?_ ?_ hinv.conserved⟩
    · refine Function.update_of_ne (fun hnode => ha ?_) _ _
      simp [hown, hnode]
    · exact ⟨⟨x, hown, Function.update_self .., harg⟩, rfl⟩
    · exact hdue ▸ hinv.owed i
  | cas node head =>
    obtain ⟨x, hown, hnode, harg⟩ := hpc
    by_cases hcas : s.stack.head = head ∧ spurious = false
    · simp only [pushStep, hcas, and_self, if_true, Option.some.injEq] at hstep
      subst hstep
      -- The node goes from the thread to the top of the stack.
      have hnodup := hinv.nodup i
      rw [hown] at hnodup
      have hperm : (((node, x) :: nodes) ++ []).Perm (nodes ++ [(node, x)]) := by
        simpa using (List.perm_append_singleton (node, x) nodes).symm
      refine ⟨(node, x) :: nodes, _, _, hinv.moved [] []
        ⟨?_, fun a ha => .inl ?_, fun _ _ _ => rfl, fun _ _ _ _ hmem => ?_, fun j _ => ?_⟩
        ?_ ?_ ?_ ?_ ?_⟩
      · exact (hperm.map Prod.fst).nodup_iff.mpr hnodup
      · rw [hown]
        exact (hperm.map Prod.fst).mem_iff.mp ha
      · exact List.mem_cons_of_mem _ hmem
      · simp [updPush, hcas, Hist.push]
      · exact ⟨rfl, head, hnode, hcas.1 ▸ hinv.chain⟩
      · simp [updPush, hcas, Hist.push, harg, hinv.contents]
      · exact ⟨rfl, rfl⟩
      · simpa [updPush, hcas, Hist.push, hdue] using hinv.owed i
      · simp only [updPush, hcas, and_self, if_true, Hist.push, harg, Option.toList_some,
          List.singleton_append]
        exact (hinv.conserved.cons x).trans List.perm_middle.symm
    · simp only [pushStep, hcas, if_false, Option.some.injEq] at hstep
      subst hstep
      simp only [updPush, hcas, if_false]
      exact ⟨_, _, _, hinv.stays s.stack.len ⟨⟨x, head, hown, hnode, harg⟩, hdue⟩⟩
  | len =>
    cases hstep
    exact ⟨nodes, own, due, hinv.stays (wrappingAdd s.stack.len 1) ⟨hpc, hdue⟩⟩

/-! ### `pop` -/

/-- A head that was just loaded is the top of the stack. -/
theorem Inv.loop (arg : Option T) : PcOk s.stack.heap nodes [] arg [] (.loop s.stack.head) := by
  have hchain := hinv.chain
  cases hhead : s.stack.head with
  | none => exact ⟨rfl, rfl⟩
  | some a =>
    rw [hhead] at hchain
    obtain ⟨x, next, l, rfl, -, -⟩ := hchain.exists_cons
    exact ⟨rfl, rfl, List.mem_cons_self ..⟩

/-- The CAS takes the top node, which no other pop has loaded. -/
theorem Inv.popCas {head : Nat} {next : Option Nat} (hat : s.pc i = .pop (.cas head next))
    (hhead : s.stack.head = some head) (halone : ∀ j, j ≠ i → (s.pc j).loaded ≠ some head) :
    ∃ nodes' own' due',
      Inv nodes' own' due' (s.moved i (.pop (.len head), { s.stack with head := next }))
        (h.take i (h.contents.take 1) (h.contents.drop 1)) := by
  have hpc := hinv.pc i
  rw [hat] at hpc
  obtain ⟨hown, hdue, -, y, hread⟩ := hpc
  have hchain := hinv.chain
  rw [hhead] at hchain
  obtain ⟨x, next', l, rfl, hnode, hrest⟩ := hchain.exists_cons
  -- Nodes of the stack are not written, so the `next` that was read is still the right one.
  obtain ⟨rfl, rfl⟩ : x = y ∧ next' = next := by simpa [hnode] using hread
  have hcontents : h.contents = x :: l.map Prod.snd := hinv.contents.symm
  have hnodup := hinv.nodup i
  rw [hown, List.append_nil] at hnodup
  have hperm : (l ++ [(head, x)]).Perm ((head, x) :: l) := List.perm_append_singleton _ _
  refine ⟨l, _, _, hinv.moved [(head, x)] [x]
    ⟨?_, fun a ha => .inl ?_, fun _ _ _ => rfl, fun j hj a ha hmem => ?_, fun j hj => ?_⟩
    hrest ?_ ⟨x, next', rfl, hnode, rfl⟩ ?_ ?_⟩
  · exact (hperm.map Prod.fst).nodup_iff.mpr hnodup
  · rw [hown, List.append_nil]
    exact (hperm.map Prod.fst).mem_iff.mp ha
  · rcases List.mem_cons.mp hmem with rfl | hmem
    · exact absurd ha (halone j hj)
    · exact hmem
  · exact ⟨rfl, taken_append_of_ne hj _ _, rfl⟩
  · simp [Hist.take, hcontents]
  · have howed := hinv.owed i
    rw [hdue, List.nil_append] at howed
    simp only [Hist.take, taken_append_self, howed, hcontents, List.take_succ_cons, List.take_zero]
  · have hconserved := hinv.conserved
    rw [hcontents] at hconserved
    simp only [Hist.take, hcontents, List.take_succ_cons, List.take_zero, List.drop_succ_cons,
      List.drop_zero, List.map_cons, List.map_nil, List.cons_append, List.nil_append]
    exact hconserved.trans List.perm_middle

end

/-- A node that is the thread's own is freed and what it held is returned. -/
theorem Inv.popTake {head : Nat} (spurious : Bool) (hinv : Inv nodes own due s h)
    (hat : s.pc i = .pop (.take head)) :
    ∃ nodes' own' due', Inv nodes' own' due' (s.moved i (popStep spurious s.stack (.take head)))
      (updPop i spurious s.stack h (.take head)) := by
  have hpc := hinv.pc i
  rw [hat] at hpc
  obtain ⟨x, next, hown, hnode, hdue⟩ := hpc
  simp only [popStep, updPop, hnode]
  have hnodup := hinv.nodup i
  rw [List.map_append, List.nodup_append] at hnodup
  have hout : head ∉ nodes.map Prod.fst := fun hmem => hinv.apart i hmem (by simp [hown])
  refine ⟨nodes, _, _, hinv.moved [] []
    ⟨by simpa using hnodup.1, fun a ha => .inl ?_, fun a ha _ => ?_, fun _ _ _ _ hmem => hmem,
      fun j hj => ⟨rfl, rfl, Function.update_of_ne hj _ _⟩⟩
    (hinv.chain.update hout) hinv.contents ⟨rfl, rfl⟩ ?_ hinv.conserved⟩
  · rw [List.append_nil] at ha
    simp only [List.map_append, List.mem_append]
    exact .inl ha
  · refine Function.update_of_ne (fun hhead => ha ?_) _ _
    simp [hown, hhead]
  · simpa [Hist.return, hdue] using hinv.owed i

theorem Inv.pop {pc : PopPc} {spurious : Bool} (hinv : Inv nodes own due s h)
    (hat : s.pc i = .pop pc) (halone : Pc.Exclusive s i spurious (.pop pc)) :
    ∃ nodes' own' due', Inv nodes' own' due' (s.moved i (popStep spurious s.stack pc))
      (updPop i spurious s.stack h pc) := by
  have hpc := hinv.pc i
  rw [hat] at hpc
  cases pc with
  | load =>
    refine ⟨_, _, _, hinv.stays s.stack.len ?_⟩
    rw [hpc.1, hpc.2]
    exact hinv.loop _
  | next head =>
    obtain ⟨hown, hdue, hmem⟩ := hpc
    obtain ⟨node, hnode⟩ := Option.ne_none_iff_exists'.mp (hinv.chain.ne_none hmem)
    simp only [popStep, hnode]
    exact ⟨_, _, _, hinv.stays s.stack.len ⟨hown, hdue, hmem, node.value, hnode⟩⟩
  | cas head next =>
    by_cases hcas : s.stack.head = some head ∧ spurious = false
    · simp only [popStep, updPop, hcas, and_self, if_true]
      exact hinv.popCas hat hcas.1 (halone hcas)
    · simp only [popStep, updPop, hcas, if_false]
      refine ⟨_, _, _, hinv.stays s.stack.len ?_⟩
      rw [hpc.1, hpc.2.1]
      exact hinv.loop _
  | len head =>
    obtain ⟨x, next, hnode⟩ := hpc
    exact ⟨nodes, own, due, hinv.stays (wrappingSub s.stack.len 1) ⟨x, next, hnode⟩⟩
  | take head => exact hinv.popTake spurious hat

/-! ### `drain_all` -/

theorem Inv.drain {pc : DrainAllPc T} {spurious : Bool} (hinv : Inv nodes own due s h)
    (hat : s.pc i = .drain pc) (halone : Pc.Exclusive s i spurious (.drain pc)) :
    ∃ nodes' own' due', Inv nodes' own' due' (s.moved i (drainAllStep s.stack pc))
      (updDrain i h pc) := by
  have hpc := hinv.pc i
  rw [hat] at hpc
  cases pc with
  | swap =>
    -- All nodes of the stack become the thread's own.
    obtain ⟨hown, hdue⟩ := hpc
    have hnodup := hinv.nodup i
    rw [hown, List.append_nil] at hnodup
    refine ⟨[], _, _, hinv.moved nodes h.contents.reverse
      ⟨hnodup, fun a ha => .inl ?_, fun _ _ _ => rfl, fun j _ a ha => ?_, fun j hj => ?_⟩
      rfl rfl ⟨hinv.chain, ?_⟩ ?_ ?_⟩
    · simp only [List.map_append, List.mem_append]
      exact .inl ha
    · rw [halone j] at ha
      cases ha
    · exact ⟨rfl, taken_append_of_ne hj _ _, rfl⟩
    · rw [List.nil_append, hinv.contents]
    · have howed := hinv.owed i
      rw [hdue, List.nil_append] at howed
      simp only [updDrain, Hist.take, taken_append_self, howed]
    · have hvalues : ((h.contents.reverse.map (i, ·)).map Prod.snd) = h.contents.reverse := by
        simp [Function.comp_def]
      simp only [updDrain, Hist.take, List.map_append, hvalues, List.append_nil]
      exact hinv.conserved.trans
        (List.perm_append_comm.trans ((List.reverse_perm _).symm.append_right _))
  | walk head out =>
    obtain ⟨hchain, hdue⟩ := hpc
    cases head with
    | none =>
      have hown := hchain.eq_nil
      refine ⟨_, _, _, hinv.stays s.stack.len ⟨hown, ?_⟩⟩
      simpa [hown] using hdue
    | some a =>
      obtain ⟨x, next, l, hown, hnode, hrest⟩ := hchain.exists_cons
      simp only [drainAllStep, updDrain, hnode]
      have hnodup := hinv.nodup i
      rw [hown, List.map_append, List.map_cons, List.nodup_append, List.nodup_cons] at hnodup
      obtain ⟨hnodes, ⟨hfirst, hl⟩, hapart⟩ := hnodup
      have hout : a ∉ nodes.map Prod.fst := fun hmem => hinv.apart i hmem (by simp [hown])
      refine ⟨nodes, _, _, hinv.moved l (due i)
        ⟨?_, fun b hb => .inl ?_, fun b hb _ => ?_, fun _ _ _ _ hmem => hmem,
          fun _ _ => ⟨rfl, rfl, rfl⟩⟩
        (hinv.chain.update hout) hinv.contents ⟨hrest.update hfirst, ?_⟩ (hinv.owed i)
        hinv.conserved⟩
      · rw [List.map_append, List.nodup_append]
        exact ⟨hnodes, hl, fun b hb c hc => hapart b hb c (List.mem_cons_of_mem _ hc)⟩
      · rw [List.map_append, List.mem_append] at hb ⊢
        rw [hown]
        exact hb.imp_right (List.mem_cons_of_mem _)
      · refine Function.update_of_ne (fun hba => hb ?_) _ _
        simp [hown, hba]
      · simpa [hown] using hdue
  | len out =>
    obtain ⟨hown, hdue⟩ := hpc
    have hheap : (drainAllStep s.stack (.len out)).2.heap = s.stack.heap := rfl
    have hframe : Frame nodes nodes (own i) (own i) i s _ h (h.return i out.reverse) :=
      hinv.frame hheap fun j hj => ⟨rfl, rfl, Function.update_of_ne hj _ _⟩
    refine ⟨nodes, _, _, hinv.moved (own i) [] hframe hinv.chain hinv.contents ⟨hown, rfl⟩ ?_
      hinv.conserved⟩
    simpa [updDrain, Hist.return, hdue] using hinv.owed i

/-! ### Whole runs -/

theorem inv_new : Inv [] (fun _ : ι => []) (fun _ => []) (St.new : St T ι) Hist.init where
  chain := rfl
  contents := rfl
  nodup := fun _ => List.nodup_nil
  distinct := fun _ _ _ ha => by cases ha
  pc := fun _ => ⟨rfl, rfl⟩
  owed := fun _ => rfl
  conserved := .nil

theorem Inv.step {a : Act T ι} {s' : St T ι} (hinv : Inv nodes own due s h)
    (halone : Exclusive s a) (hstep : MpmcPop.step a s = some s') :
    ∃ nodes' own' due', Inv nodes' own' due' s' (upd a s h) := by
  cases a with
  | push i a value =>
    simp only [MpmcPop.step] at hstep
    split at hstep
    case h_1 hidle =>
      obtain ⟨q, halloc, rfl⟩ := Option.map_eq_some_iff.mp hstep
      exact ⟨nodes, hinv.alloc hidle halloc⟩
    case h_2 => cases hstep
  | pop i | drainAll i =>
    simp only [MpmcPop.step] at hstep
    split at hstep
    case h_1 hidle =>
      cases hstep
      have hpc := hinv.pc i
      rw [hidle] at hpc
      exact ⟨_, _, _, hinv.stays s.stack.len hpc⟩
    case h_2 => cases hstep
  | run i spurious =>
    obtain ⟨p, hrun, rfl⟩ := Option.map_eq_some_iff.mp hstep
    simp only [Exclusive] at halone
    simp only [upd]
    cases hat : s.pc i with
    | idle | fault => rw [hat] at hrun; cases hrun
    | push pc =>
      rw [hat] at hrun
      obtain ⟨q, hq, rfl⟩ := Option.map_eq_some_iff.mp hrun
      exact hinv.push hat hq
    | pop pc =>
      rw [hat] at hrun halone
      cases hrun
      exact hinv.pop hat halone
    | drain pc =>
      rw [hat] at hrun halone
      cases hrun
      exact hinv.drain hat halone

theorem Inv.linearized (hinv : Inv nodes own due s h) : Linearized s h where
  live := fun i hfault => by
    have hpc := hinv.pc i
    rw [hfault] at hpc
    exact hpc
  chain := ⟨nodes, hinv.chain, hinv.contents⟩
  conserved := hinv.conserved
  returns := fun i hidle => by
    have hpc := hinv.pc i
    rw [hidle] at hpc
    rw [hinv.owed i, hpc.2, List.nil_append]

theorem inv_of_run {tr : List (Act T ι)} {p : St T ι × Hist T ι}
    (hrun : StackRun Exclusive tr p) : ∃ nodes own due, Inv nodes own due p.1 p.2 := by
  refine hrun.hist_invariant (I := fun s h => ∃ nodes own due, Inv nodes own due s h) ?_
    (fun _ _ _ _ ⟨_, _, _, hinv⟩ hok hst => hinv.step hok hst)
  rintro s rfl
  exact ⟨_, _, _, inv_new⟩

/-- Without interference between a load and its CAS the stack is linearizable. -/
theorem stack_linearizable {tr : List (Act T ι)} {s : St T ι} {h : Hist T ι}
    (hrun : StackRun Exclusive tr (s, h)) : Linearized s h := by
  obtain ⟨nodes, own, due, hinv⟩ := inv_of_run hrun
  exact hinv.linearized

end

/-! ## Concrete runs -/

instance Pc.decidableExclusive {n : Nat} (s : St T (Fin n)) (i : Fin n) (spurious : Bool) :
    (pc : Pc T) → Decidable (pc.Exclusive s i spurious)
  | .pop (.cas head _) => inferInstanceAs (Decidable
      (s.stack.head = some head ∧ spurious = false → ∀ j, j ≠ i → (s.pc j).loaded ≠ some head))
  | .drain .swap => inferInstanceAs (Decidable (∀ j, (s.pc j).loaded = none))
  | .idle | .push _ | .fault | .pop .load | .pop (.next _) | .pop (.len _) | .pop (.take _)
  | .drain (.walk _ _) | .drain (.len _) => .isTrue trivial

instance decidableExclusive {n : Nat} (s : St T (Fin n)) :
    (a : Act T (Fin n)) → Decidable (Exclusive s a)
  | .run i spurious => inferInstanceAs (Decidable ((s.pc i).Exclusive s i spurious))
  | .push _ _ _ | .pop _ | .drainAll _ => .isTrue trivial

def steps (n : Nat) (i : Fin 2) : List (Act Nat (Fin 2)) := List.replicate n (.run i false)

/-- A whole `push` and a whole `pop` that nothing interrupts. -/
def pushRun (i : Fin 2) (addr value : Nat) : List (Act Nat (Fin 2)) :=
  .push i addr value :: steps 4 i

def popRun (i : Fin 2) : List (Act Nat (Fin 2)) := .pop i :: steps 5 i

/-- Three pushes, the second of them with a CAS that loses; then a pop and a drain. -/
def pushPopDrain : List (Act Nat (Fin 2)) :=
  [.push 0 10 7] ++ steps 2 0 ++ pushRun 1 11 8 ++ steps 4 0 ++ pushRun 1 12 9 ++ popRun 0 ++
    [.drainAll 1] ++ steps 5 1

theorem stack_linearizable_pushPopDrain :
    ∃ s h, StackRun Exclusive pushPopDrain.reverse (s, h) ∧ Linearized s h ∧
      h.pushed = [9, 7, 8] ∧ h.contents = [] ∧ h.returned 0 = [9] ∧ h.returned 1 = [8, 7] := by
  obtain ⟨⟨s, h⟩, hrun, heq⟩ : ∃ p, StackRun Exclusive pushPopDrain.reverse p ∧
      p.2.pushed = [9, 7, 8] ∧ p.2.contents = [] ∧ p.2.returned 0 = [9] ∧ p.2.returned 1 = [8, 7] :=
    Run.exists_of_guarded pushPopDrain (St.new, Hist.init) ⟨rfl, rfl⟩ (by decide +kernel)
  exact ⟨s, h, hrun, stack_linearizable hrun, heq⟩

/-- Thread 0 loads the head, and thread 1 pops that node and frees it. -/
def popFreed : List (Act Nat (Fin 2)) :=
  pushRun 0 10 7 ++ [.pop 0] ++ steps 1 0 ++ popRun 1 ++ steps 1 0

/-- Thread 0 has read that the node at 10 is followed by the one at 11. Thread 1 pops both and
pushes a value whose node is at 10 again, and the CAS of thread 0 succeeds. -/
def popReused : List (Act Nat (Fin 2)) :=
  pushRun 0 11 7 ++ pushRun 0 10 8 ++ [.pop 0] ++ steps 2 0 ++ popRun 1 ++ popRun 1 ++
    pushRun 1 10 9 ++ steps 1 0

def Pc.isFault : Pc T → Bool
  | .fault => true
  | .idle | .push _ | .pop _ | .drain _ => false

/-- A thread reads a freed node; and the head points to a freed node, so that no chain of live
nodes begins there. -/
theorem pop_reads_freed :
    (∃ s h, StackRun Free popFreed.reverse (s, h) ∧ s.pc 0 = .fault ∧ ¬ Linearized s h) ∧
    ∃ s h, StackRun Free popReused.reverse (s, h) ∧ s.stack.head = some 11 ∧
      s.stack.heap 11 = none ∧ (∀ nodes, ¬ Chain s.stack.heap s.stack.head nodes) ∧
      ¬ Linearized s h := by
  constructor
  · obtain ⟨⟨s, h⟩, hrun, heq⟩ : ∃ p, StackRun Free popFreed.reverse p ∧ (p.1.pc 0).isFault :=
      Run.exists_of_exec popFreed (St.new, Hist.init) ⟨rfl, rfl⟩ (by decide +kernel)
    have hfault : s.pc 0 = .fault := by
      cases hpc : s.pc 0 <;> simp_all [Pc.isFault]
    exact ⟨s, h, hrun, hfault, fun hlin => hlin.live 0 hfault⟩
  · obtain ⟨⟨s, h⟩, hrun, hhead, hfree⟩ : ∃ p, StackRun Free popReused.reverse p ∧
        p.1.stack.head = some 11 ∧ (p.1.stack.heap 11).isNone :=
      Run.exists_of_exec popReused (St.new, Hist.init) ⟨rfl, rfl⟩ (by decide +kernel)
    have hfree : s.stack.heap 11 = none := Option.isNone_iff_eq_none.mp hfree
    have hchain : ∀ nodes, ¬ Chain s.stack.heap s.stack.head nodes := by
      intro nodes hchain
      rw [hhead] at hchain
      obtain ⟨x, next, l, -, hnode, -⟩ := hchain.exists_cons
      rw [hfree] at hnode
      cases hnode
    refine ⟨s, h, hrun, hhead, hfree, hchain, fun hlin => ?_⟩
    obtain ⟨nodes, hnodes, -⟩ := hlin.chain
    exact hchain nodes hnodes

end Dtact.MpmcPop
