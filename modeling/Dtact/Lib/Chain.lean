import Mathlib.Data.List.Basic
import Mathlib.Logic.Function.Basic

/-!
# Chains of nodes in a heap

A heap maps addresses to nodes, each with a value and the address of the next one. `Chain
heap p l` says that the nodes met from `p` on are those of `l`, the last of which has no
successor. The lemmas say what the first node of a chain is and that a chain does not change
when a node outside of it is written, made or freed.
-/

namespace LinkedHeap

variable {A α : Type}

structure Node (A α : Type) where
  value : α
  next : Option A

/-- `none` at an address that is not in use. -/
abbrev Heap (A α : Type) := A → Option (Node A α)

/-- The chain from `p` consists of the nodes `l`, given by their addresses and values. -/
def Chain (heap : Heap A α) : Option A → List (A × α) → Prop
  | p, [] => p = none
  | p, (a, x) :: l => p = some a ∧ ∃ next, heap a = some ⟨x, next⟩ ∧ Chain heap next l

namespace Chain

variable {heap heap' : Heap A α} {p : Option A} {a : A} {l l' : List (A × α)}

theorem eq_nil (h : Chain heap none l) : l = [] := by
  cases l with
  | nil => rfl
  | cons y l => cases h.1

/-- A chain that begins at `a` has the node of `a` as its first one. -/
theorem exists_cons (h : Chain heap (some a) l) :
    ∃ x next l', l = (a, x) :: l' ∧ heap a = some ⟨x, next⟩ ∧ Chain heap next l' := by
  cases l with
  | nil => cases h
  | cons y l =>
    obtain ⟨b, x⟩ := y
    obtain ⟨hb, next, hnode, hchain⟩ := h
    cases hb
    exact ⟨x, next, l, rfl, hnode, hchain⟩

/-- The nodes of a chain are in use. -/
theorem ne_none (h : Chain heap p l) (ha : a ∈ l.map Prod.fst) : heap a ≠ none := by
  induction l generalizing p with
  | nil => cases ha
  | cons y l ih =>
    obtain ⟨_, next, hnode, hchain⟩ := h
    rcases List.mem_cons.mp ha with rfl | ha
    · rw [hnode]
      exact Option.some_ne_none _
    · exact ih hchain ha

theorem notMem_of_none (h : Chain heap p l) (ha : heap a = none) : a ∉ l.map Prod.fst :=
  fun hmem => h.ne_none hmem ha

theorem congr (hheap : ∀ a ∈ l.map Prod.fst, heap' a = heap a) (h : Chain heap p l) :
    Chain heap' p l := by
  induction l generalizing p with
  | nil => exact h
  | cons y l ih =>
    obtain ⟨hp, next, hnode, hchain⟩ := h
    rw [List.map_cons, List.forall_mem_cons] at hheap
    exact ⟨hp, next, hheap.1.trans hnode, ih hheap.2 hchain⟩

/-- Writing, making or freeing a node elsewhere. -/
theorem update [DecidableEq A] {node : Option (Node A α)} (ha : a ∉ l.map Prod.fst)
    (h : Chain heap p l) : Chain (Function.update heap a node) p l :=
  h.congr fun _ hb => Function.update_of_ne (ne_of_mem_of_not_mem hb ha) _ _

end Chain

end LinkedHeap
