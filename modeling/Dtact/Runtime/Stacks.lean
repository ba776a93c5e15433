import Dtact.Runtime.Lifecycle

/-!
# Call stacks

User code makes its calls from the closure of the fiber or from inside a poll. So only the innermost
call of a stack moves; under it there are polls, and a `yield_to` under the wake it makes first.

Results:
1. `Machine.nested`: this holds of all stacks in all runs.
2. `Machine.step_awaits`: how a fiber comes to be in a `dtact_await`, by one step.
-/

namespace Dtact.Runtime

open Scheduler Transition

/-- The call can stand under another one. -/
def Call.under : Call → Bool
  | .yieldTo .store => true
  | c => c.isPoll

def Nested (calls : List Call) : Prop := ∀ c ∈ calls.tail, c.under

/-! ## Stacks are nested -/

namespace Nested

variable {calls rest : List Call} {c : Call}

theorem nil : Nested [] := fun _ hc => (List.not_mem_nil hc).elim

theorem of_under (h : ∀ c ∈ calls, c.under) : Nested calls :=
  fun c hc => h c (List.mem_of_mem_tail hc)

theorem cons (h : ∀ c ∈ rest, c.under) : Nested (c :: rest) := h

theorem all_under (h : Nested calls) (hu : inUser calls) : ∀ c ∈ calls, c.under := by
  cases calls with
  | nil => simp
  | cons c rest =>
    have hc : c.under := by
      cases c with
      | wait pc => exact hu
      | _ => cases hu
    rintro c' (_ | ⟨_, hc'⟩)
    · exact hc
    · exact h c' hc'

theorem unwind (h : ∀ c ∈ rest, c.under) : Nested (unwind rest) :=
  of_under fun c hc => h c ((List.dropWhile_sublist _).subset hc)

theorem user {u : UserAct} {control : Control} (h : Nested calls) (hu : inUser calls)
    (hc : u.onFiber calls = some control) : Nested control.calls := by
  have hall := h.all_under hu
  cases UserAct.onFiber_leads hc with
  | yieldTo target core =>
    refine Nested.cons ?_
    rintro c (_ | ⟨_, hc⟩)
    · rfl
    · exact hall c hc
  | poll => exact Nested.cons fun c hc => hall c (.tail _ hc)
  | done => exact Nested.nil
  | unwind => exact Nested.unwind fun c hc => hall c (.tail _ hc)
  | _ => exact Nested.cons hall

theorem next {n : Nat} [NeZero n] {who : Who n} {sh : Shared n} {next : Next n}
    (h : Nested (c :: rest)) (hr : c.run who sh = some next) : Nested (next.calls rest) := by
  have hrest : ∀ c' ∈ rest, c'.under := h
  cases next with
  | panic sh' => exact Nested.unwind hrest
  | goto calls sh' | switch calls sh' =>
    rcases Call.run_follows hr with hown | ⟨c', hown, -⟩
    · obtain rfl : calls = [] := hown
      exact of_under hrest
    · obtain rfl : calls = [c'] := hown
      exact Nested.cons hrest

theorem waiterCalls (packed : Nat) : Nested (Machine.waiterCalls packed) := by
  unfold Machine.waiterCalls
  intro c hc
  dsimp only at hc
  split at hc <;> cases hc

theorem move {n i : Nat} [NeZero n] {v v' : View} {e : Option Event} (h : Nested v.control.calls)
    (hm : Moves n i v e v') : Nested v'.control.calls := by
  cases hm with
  | start _ => exact Nested.nil
  | user hu hcall => exact h.user hu hcall
  | body _ _ _ hr | late _ _ _ hr _ => exact h.next hr
  | finish => exact Nested.nil
  | waiter packed => exact waiterCalls packed
  | leave => exact Nested.nil
  | _ => exact h

end Nested

namespace Machine

variable {n cap hosts : Nat} {rt rt' : Machine n cap hosts} {a : Act n hosts}

theorem Sound.nested_step [NeZero n] (h : rt.Sound) (hst : Machine.step a rt = some rt')
    {i : Fin cap} (hn : Nested (rt.shared.fibers i).calls) :
    Nested (rt'.shared.fibers i).calls := by
  obtain ⟨seat, hseat, -⟩ := h.fiber i
  obtain ⟨seat', hmove, -⟩ := step_simulated hseat (h.claims i) hst
  exact hn.move hmove

/-! ## Fibers in `dtact_await` -/

/-- The fiber `j` is in `dtact_await`. -/
def Awaits (rt : Machine n cap hosts) (j : Fin cap) (target gen : Nat) (pc : AwaitPc) : Prop :=
  (rt.shared.fibers j).calls.head? = some (.await target gen pc)

/-- How a step leaves the fiber `j` in `dtact_await`. -/
inductive AwaitStep (rt : Machine n cap hosts) (a : Act n hosts) (j : Fin cap) (target gen : Nat) :
    AwaitPc → Prop
  | stay {pc : AwaitPc} : rt.Awaits j target gen pc → rt.Elsewhere a j →
      AwaitStep rt a j target gen pc
  | enter {w : Fin n} : rt.workers w = .on .running j →
      a = .user (.fiber w) (.await target gen) → AwaitStep rt a j target gen .swap
  | run {w : Fin n} {pc pc' : AwaitPc} : rt.workers w = .on .running j → a = .run (.fiber w) →
      rt.Awaits j target gen pc →
      (pc.run j (.worker w) target gen rt.shared).own = [.await target gen pc'] →
      AwaitStep rt a j target gen pc'

variable {target gen : Nat} {pc : AwaitPc}

theorem Awaits.not_under {rest : List Call} (h : ∀ c ∈ rest, c.under) :
    rest.head? ≠ some (.await target gen pc) := by
  intro hc
  have := h _ (List.mem_of_mem_head? hc)
  cases this

theorem user_awaits {u : UserAct} {calls : List Call} {control : Control} (hn : Nested calls)
    (hu : inUser calls) (hc : u.onFiber calls = some control)
    (ha : control.calls.head? = some (.await target gen pc)) :
    u = .await target gen ∧ pc = .swap := by
  have hall := hn.all_under hu
  cases UserAct.onFiber_leads hc with
  | await =>
    cases ha
    exact ⟨rfl, rfl⟩
  | unwind =>
    exact absurd ha (Awaits.not_under fun c hc =>
      hall c (.tail _ ((List.dropWhile_sublist _).subset hc)))
  | _ => cases ha

/-- A call is followed by a `dtact_await` only if it is one. -/
theorem next_awaits [NeZero n] {who : Who n} {sh : Shared n} {c : Call} {rest : List Call}
    {next : Next n} (hn : Nested (c :: rest)) (hr : c.run who sh = some next)
    (ha : (next.calls rest).head? = some (.await target gen pc)) :
    next.own = [.await target gen pc] ∧ ∃ pc', c = .await target gen pc' := by
  have hrest : ∀ c' ∈ rest, c'.under := hn
  cases next with
  | panic sh' =>
    exact absurd ha (Awaits.not_under fun c hc =>
      hrest c ((List.dropWhile_sublist _).subset hc))
  | goto calls sh' | switch calls sh' =>
    rcases Call.run_follows hr with hown | ⟨c', hown, hf⟩
    · obtain rfl : calls = [] := hown
      exact absurd ha (Awaits.not_under hrest)
    · obtain rfl : calls = [c'] := hown
      obtain rfl : c' = .await target gen pc := by simpa [Next.calls] using ha
      cases hf
      exact ⟨rfl, _, rfl⟩

theorem step_awaits [NeZero n] (hst : step a rt = some rt') {j : Fin cap}
    (hn : Nested (rt.shared.fibers j).calls) (ha : rt'.Awaits j target gen pc) :
    rt.AwaitStep a j target gen pc := by
  have hcall {w : Fin n} {c : Call} {rest : List Call} {next : Next n}
      (hw : rt.workers w = .on .running j) (hc : (rt.shared.fibers j).calls = c :: rest)
      (hr : c.run ⟨some j, .worker w⟩ rt.shared = some next)
      (ha : (next.calls rest).head? = some (.await target gen pc)) :
      rt.AwaitStep (.run (.fiber w)) j target gen pc := by
    obtain ⟨hown, pc', rfl⟩ := next_awaits (hc ▸ hn) hr ha
    cases hr
    exact .run hw rfl (by simp [Awaits, hc]) hown
  by_cases hother : rt.Elsewhere a j
  · refine .stay ?_ hother
    rcases step_fibers hst hother with hf | ⟨_, hf⟩
    · rwa [Awaits, hf] at ha
    · simp [Awaits, hf, Control.calls] at ha
  · unfold Awaits at ha
    cases step_own hst hother with
    | user hw hc hu huser =>
      rw [rt.shared.setFiber_self] at ha
      rw [hc] at hn
      obtain ⟨rfl, rfl⟩ := user_awaits hn hu huser ha
      exact .enter hw rfl
    | body hw hc hr | late hw hc hr _ =>
      simp only [proceed, setWorker, Shared.setFiber_self, Control.calls] at ha
      exact hcall hw (by rw [hc]; rfl) hr ha
    | @epilogue _ pc hw hc =>
      cases pc with
      | finish | switch => simp [Machine.epilogue, setWorker, Control.calls] at ha
      | waiter =>
        simp only [Machine.epilogue, Shared.setFiber_self, Control.calls, waiterCalls] at ha
        split at ha <;> cases ha
      | returned => simp [Machine.epilogue, hc, Control.calls] at ha
    | abort _ hc hr hp =>
      simp only [hc, Control.calls, List.head?_cons, Option.some.injEq] at ha
      subst ha
      cases Call.run_runs hr <;> cases hp

end Machine

end Dtact.Runtime
