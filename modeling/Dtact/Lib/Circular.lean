import Mathlib.Data.List.Basic
import Mathlib.Logic.Function.Basic

/-!
# Circular buffers

A buffer of `cap` cells with a head and a tail index, of which one cell stays free. `contents` is
the list it holds: `contents_push` and `contents_pushBatch` append, `contents_pop` takes the first
element off, and `isFull_iff` and `length_contents` relate the index tests to the length.

The same array with positions that only grow: `Holds` says which elements the positions from `pos`
on hold, `copyIn_at` writes a run of positions in two pieces, and `Holds.copyOut` reads one.
-/

namespace Circular

variable {α : Type} {cap : Nat}

structure Buffer (α : Type) (cap : Nat) where
  buf : Nat → α
  head : Nat
  tail : Nat
  head_lt : head < cap
  tail_lt : tail < cap

namespace Buffer

def empty (x : α) (h : 0 < cap) : Buffer α cap := ⟨fun _ => x, 0, 0, h, h⟩

/-- The number of elements, from the two indices. -/
def len (b : Buffer α cap) : Nat := (b.tail + cap - b.head) % cap

def contents (b : Buffer α cap) : List α :=
  (List.range b.len).map fun k => b.buf ((b.head + k) % cap)

/-- The next tail would meet the head. -/
def isFull (b : Buffer α cap) : Bool := (b.tail + 1) % cap = b.head

/-- Append without looking at the head. -/
def push (b : Buffer α cap) (x : α) : Buffer α cap where
  buf := Function.update b.buf b.tail x
  head := b.head
  tail := (b.tail + 1) % cap
  head_lt := b.head_lt
  tail_lt := Nat.mod_lt _ (Nat.zero_lt_of_lt b.head_lt)

def pop (b : Buffer α cap) : Option (α × Buffer α cap) :=
  if b.head = b.tail then none
  else some (b.buf b.head,
    { b with
      head := (b.head + 1) % cap
      head_lt := Nat.mod_lt _ (Nat.zero_lt_of_lt b.head_lt) })

/-- Copy `xs` into consecutive cells from `start` on. -/
def blit (buf : Nat → α) (start : Nat) (xs : List α) : Nat → α := fun i =>
  if start ≤ i then xs[i - start]?.getD (buf i) else buf i

/-- Append a list: in one piece if it fits before the end of the array, in two
pieces otherwise. -/
def pushBatch (b : Buffer α cap) (xs : List α) : Buffer α cap where
  buf :=
    if b.tail + xs.length ≤ cap then blit b.buf b.tail xs
    else blit (blit b.buf b.tail (xs.take (cap - b.tail))) 0 (xs.drop (cap - b.tail))
  head := b.head
  tail := (b.tail + xs.length) % cap
  head_lt := b.head_lt
  tail_lt := Nat.mod_lt _ (Nat.zero_lt_of_lt b.head_lt)

/-! ## Indices -/

theorem mod_eq_ite {x : Nat} (h : x < 2 * cap) : x % cap = if x < cap then x else x - cap := by
  split
  · next hlt => exact Nat.mod_eq_of_lt hlt
  · rw [Nat.mod_eq_sub_mod (by omega), Nat.mod_eq_of_lt (by omega)]

theorem len_lt (b : Buffer α cap) : b.len < cap := Nat.mod_lt _ (Nat.zero_lt_of_lt b.head_lt)

theorem len_eq (b : Buffer α cap) :
    b.len = if b.head ≤ b.tail then b.tail - b.head else b.tail + cap - b.head := by
  have h₁ := b.head_lt
  have h₂ := b.tail_lt
  rw [len, mod_eq_ite (by omega)]
  split <;> split <;> omega

theorem length_contents (b : Buffer α cap) : b.contents.length = b.len := by
  simp [contents]

theorem contents_empty (x : α) (h : 0 < cap) : (empty x h).contents = [] := by
  simp [contents, len, empty]

theorem isFull_iff (b : Buffer α cap) : b.isFull = true ↔ b.len + 1 = cap := by
  have h₁ := b.head_lt
  have h₂ := b.tail_lt
  have h₃ := b.len_eq
  simp only [isFull, decide_eq_true_eq]
  rw [mod_eq_ite (by omega)]
  split at h₃ <;> split <;> omega

theorem head_eq_tail_iff (b : Buffer α cap) : b.head = b.tail ↔ b.len = 0 := by
  have h₁ := b.head_lt
  have h₂ := b.tail_lt
  have h₃ := b.len_eq
  split at h₃ <;> omega

theorem tail_eq (b : Buffer α cap) : (b.head + b.len) % cap = b.tail := by
  have h₁ := b.head_lt
  have h₂ := b.tail_lt
  have h₃ := b.len_eq
  have h₄ := b.len_lt
  rw [mod_eq_ite (by omega)]
  split at h₃ <;> split <;> omega

/-! ## Contents -/

variable {xs : List α} {buf : Nat → α} {start : Nat}

/-- Writing the cells behind the contents appends. -/
theorem contents_extend {b b' : Buffer α cap} (hhead : b'.head = b.head)
    (hlen : b'.len = b.len + xs.length)
    (hold : ∀ k < b.len, b'.buf ((b.head + k) % cap) = b.buf ((b.head + k) % cap))
    (hnew : ∀ k (h : k < xs.length), b'.buf ((b.head + (b.len + k)) % cap) = xs[k]) :
    b'.contents = b.contents ++ xs := by
  refine List.ext_getElem (by simp [contents, hlen]) fun k hk _ => ?_
  rw [length_contents, hlen] at hk
  simp only [contents, List.getElem_map, List.getElem_range, hhead]
  by_cases hlt : k < b.len
  · rw [List.getElem_append_left (by simpa using hlt), hold k hlt]
    simp
  · rw [List.getElem_append_right (by simpa using hlt)]
    have := hnew (k - b.len) (by omega)
    rw [Nat.add_sub_cancel' (by omega)] at this
    simpa using this

theorem len_push (b : Buffer α cap) (x : α) (h : b.len + 1 < cap) : (b.push x).len = b.len + 1 := by
  have h₁ := b.head_lt
  have h₂ := b.tail_lt
  have h₃ := b.len_eq
  have h₄ : (b.push x).tail = if b.tail + 1 < cap then b.tail + 1 else b.tail + 1 - cap :=
    mod_eq_ite (by omega)
  have h₅ : (b.push x).head = b.head := rfl
  rw [len_eq, h₅, h₄]
  split at h₃ <;> split <;> split <;> omega

theorem contents_push (b : Buffer α cap) (x : α) (h : b.len + 1 < cap) :
    (b.push x).contents = b.contents ++ [x] := by
  refine contents_extend rfl (b.len_push x h) (fun k hk => ?_) (fun k hk => ?_)
  · have h₁ := b.head_lt
    have h₂ := b.tail_eq
    have hne : (b.head + k) % cap ≠ b.tail := by
      rw [← h₂, mod_eq_ite (by omega), mod_eq_ite (by omega)]
      split <;> split <;> omega
    simp [push, Function.update_of_ne hne]
  · obtain rfl : k = 0 := by simpa using hk
    simp [push, b.tail_eq]

theorem contents_pop (b : Buffer α cap) :
    (b.pop = none ∧ b.contents = []) ∨
      ∃ x b', b.pop = some (x, b') ∧ b.contents = x :: b'.contents := by
  have h₁ := b.head_lt
  by_cases he : b.head = b.tail
  · refine Or.inl ⟨by simp [pop, he], ?_⟩
    rw [contents, b.head_eq_tail_iff.mp he]
    rfl
  · right
    refine ⟨_, _, by simp [pop, he]; exact ⟨rfl, rfl⟩, ?_⟩
    have hpos : b.len ≠ 0 := fun h => he (b.head_eq_tail_iff.mpr h)
    obtain ⟨m, hm⟩ : ∃ m, b.len = m + 1 := ⟨b.len - 1, by omega⟩
    have h₂ := b.len_eq
    have h₃ := b.len_lt
    have h₄ := b.tail_lt
    have hlen : len { b with
        head := (b.head + 1) % cap
        head_lt := Nat.mod_lt _ (Nat.zero_lt_of_lt b.head_lt) } = m := by
      rw [len_eq]
      simp only
      rw [mod_eq_ite (by omega)]
      split at h₂ <;> split <;> split <;> omega
    rw [contents, hm, List.range_succ_eq_map, List.map_cons, Nat.add_zero, Nat.mod_eq_of_lt h₁,
      contents, hlen, List.map_map]
    refine congrArg _ (List.map_congr_left fun k hk => ?_)
    have hk := List.mem_range.mp hk
    simp only [Function.comp]
    congr 1
    rw [Nat.mod_add_mod]
    congr 1
    omega

theorem blit_of_lt {i : Nat} (h : i < start) : blit buf start xs i = buf i := by
  simp [blit, Nat.not_le.mpr h]

theorem blit_of_ge {i : Nat} (h : start + xs.length ≤ i) : blit buf start xs i = buf i := by
  rw [blit, if_pos (by omega), List.getElem?_eq_none (by omega), Option.getD_none]

theorem blit_at {k : Nat} (h : k < xs.length) : blit buf start xs (start + k) = xs[k] := by
  simp [blit, h]

theorem len_pushBatch (b : Buffer α cap) (xs : List α) (h : b.len + xs.length < cap) :
    (b.pushBatch xs).len = b.len + xs.length := by
  have h₁ := b.head_lt
  have h₂ := b.tail_lt
  have h₃ := b.len_eq
  have h₄ : (b.pushBatch xs).tail =
      if b.tail + xs.length < cap then b.tail + xs.length else b.tail + xs.length - cap :=
    mod_eq_ite (by omega)
  have h₅ : (b.pushBatch xs).head = b.head := rfl
  rw [len_eq, h₅, h₄]
  split at h₃ <;> split <;> split <;> omega

theorem contents_pushBatch (b : Buffer α cap) (xs : List α) (h : b.len + xs.length < cap) :
    (b.pushBatch xs).contents = b.contents ++ xs := by
  have h₁ := b.head_lt
  have h₂ := b.tail_lt
  have h₃ := b.len_eq
  refine contents_extend rfl (b.len_pushBatch xs h) (fun k hk => ?_) (fun k hk => ?_)
  · rw [mod_eq_ite (by omega)]
    simp only [pushBatch]
    by_cases hfit : b.tail + xs.length ≤ cap
    · rw [if_pos hfit]
      split at h₃ <;> split <;>
        first | exact blit_of_lt (by omega) | exact blit_of_ge (by omega)
    · -- the second piece ends before the head, the first one starts at the tail
      rw [if_neg hfit]
      have hlen : (xs.drop (cap - b.tail)).length = xs.length - (cap - b.tail) := List.length_drop
      split at h₃
      · rw [if_pos (by omega), blit_of_ge (by omega), blit_of_lt (by omega)]
      · omega
  · have htail : (b.head + (b.len + k)) % cap = (b.tail + k) % cap := by
      rw [← b.tail_eq, Nat.mod_add_mod, Nat.add_assoc]
    rw [htail, mod_eq_ite (by omega)]
    simp only [pushBatch]
    by_cases hfit : b.tail + xs.length ≤ cap
    · rw [if_pos hfit, if_pos (by omega), blit_at hk]
    · rw [if_neg hfit]
      have hlen : (xs.drop (cap - b.tail)).length = xs.length - (cap - b.tail) := List.length_drop
      by_cases hk' : b.tail + k < cap
      · rw [if_pos hk', blit_of_ge (by split at h₃ <;> omega),
          blit_at (by rw [List.length_take]; omega), List.getElem_take]
      · rw [if_neg hk']
        have hk'' : b.tail + k - cap < (xs.drop (cap - b.tail)).length := by omega
        have hat : blit (blit b.buf b.tail (xs.take (cap - b.tail))) 0 (xs.drop (cap - b.tail))
            (0 + (b.tail + k - cap)) = _ := blit_at hk''
        rw [Nat.zero_add] at hat
        rw [hat, List.getElem_drop]
        congr 1
        omega

end Buffer

/-! ## Positions that only grow -/

open Buffer

/-- The positions from `pos` on hold `xs`. -/
def Holds (cap : Nat) (cells : Nat → α) (pos : Nat) (xs : List α) : Prop :=
  ∀ k (h : k < xs.length), cells ((pos + k) % cap) = xs[k]

/-- Copy `xs` to the cells from `start` on; what does not fit before the end of the array goes
to its front. -/
def copyIn (cap : Nat) (cells : Nat → α) (start : Nat) (xs : List α) : Nat → α :=
  let first := min xs.length (cap - start)
  let cells := blit cells start (xs.take first)
  if first < xs.length then blit cells 0 (xs.drop first) else cells

def slice (cells : Nat → α) (start n : Nat) : List α :=
  (List.range n).map fun k => cells (start + k)

/-- Copy `n` cells from `start` on; what lies behind the end of the array is at its front. -/
def copyOut (cap : Nat) (cells : Nat → α) (start n : Nat) : List α :=
  let first := min n (cap - start)
  if first < n then slice cells start first ++ slice cells 0 (n - first)
  else slice cells start first

variable {cells : Nat → α} {start pos : Nat} {xs : List α}

theorem copyIn_of_fits (h : start + xs.length ≤ cap) :
    copyIn cap cells start xs = blit cells start xs := by
  have hfirst : min xs.length (cap - start) = xs.length := by omega
  simp only [copyIn, hfirst, List.take_length, if_neg (Nat.lt_irrefl _)]

theorem copyIn_of_wraps (h : cap - start < xs.length) : copyIn cap cells start xs =
      blit (blit cells start (xs.take (cap - start))) 0 (xs.drop (cap - start)) := by
  have hfirst : min xs.length (cap - start) = cap - start := by omega
  simp only [copyIn, hfirst, if_pos h]

theorem index_eq {k : Nat} (h : k < cap) :
    (pos + k) % cap = if pos % cap + k < cap then pos % cap + k else pos % cap + k - cap := by
  have hlt := Nat.mod_lt pos (Nat.zero_lt_of_lt h)
  rw [← Nat.mod_add_mod, mod_eq_ite (by omega)]

/-- The run is written, whatever piece an element belongs to, and no other position is. -/
theorem copyIn_at {k : Nat} (hlen : xs.length ≤ cap) (hk : k < cap) :
    copyIn cap cells (pos % cap) xs ((pos + k) % cap) = xs[k]?.getD (cells ((pos + k) % cap)) := by
  have hlt := Nat.mod_lt pos (Nat.zero_lt_of_lt hk)
  rw [index_eq hk]
  generalize pos % cap = start at hlt ⊢
  generalize hfirst : min xs.length (cap - start) = first
  have hdrop : (xs.drop first).length = xs.length - first := List.length_drop
  simp only [copyIn, hfirst]
  by_cases hfit : start + k < cap
  · -- the second piece ends before `start`
    have hsecond (cells' : Nat → α) :
        (if first < xs.length then blit cells' 0 (xs.drop first) else cells') (start + k) =
          cells' (start + k) := by
      split
      · exact blit_of_ge (by omega)
      · rfl
    have htake : (xs.take first)[k]? = xs[k]? := by
      rw [List.getElem?_take]
      split
      · rfl
      · exact (List.getElem?_eq_none (by omega)).symm
    rw [if_pos hfit, hsecond, blit, if_pos (Nat.le_add_right start k), Nat.add_sub_cancel_left,
      htake]
  · rw [if_neg hfit]
    have hbefore : blit cells start (xs.take first) (start + k - cap) = cells (start + k - cap) :=
      blit_of_lt (by omega)
    split
    · next hmore =>
      have hidx : first + (start + k - cap) = k := by omega
      rw [blit, if_pos (Nat.zero_le _), Nat.sub_zero, List.getElem?_drop, hidx, hbefore]
    · next hall =>
      rw [hbefore, List.getElem?_eq_none (by omega), Option.getD_none]

theorem Holds.copyIn (hlen : xs.length ≤ cap) :
    Holds cap (copyIn cap cells (pos % cap) xs) pos xs := by
  intro k hk
  rw [copyIn_at hlen (Nat.lt_of_lt_of_le hk hlen), List.getElem?_eq_getElem hk, Option.getD_some]

/-- Positions less than a lap behind the end of the run are not touched. -/
theorem Holds.copyIn_other {pos' : Nat} {ys : List α} (h : Holds cap cells pos ys)
    (hbefore : pos + ys.length ≤ pos') (hlap : pos' + xs.length ≤ pos + cap) :
    Holds cap (Circular.copyIn cap cells (pos' % cap) xs) pos ys := by
  intro k hk
  have hidx : (pos + k) % cap = (pos' + (pos + cap + k - pos')) % cap := by
    rw [show pos' + (pos + cap + k - pos') = pos + k + cap by omega, Nat.add_mod_right]
  rw [hidx, copyIn_at (by omega) (by omega), List.getElem?_eq_none (by omega), Option.getD_none,
    ← hidx]
  exact h k hk

theorem slice_append (cells : Nat → α) (start n m : Nat) (f : Nat → α)
    (hfirst : ∀ k < n, cells (start + k) = f k) (hsecond : ∀ k < m, cells k = f (n + k)) :
    slice cells start n ++ slice cells 0 m = (List.range (n + m)).map f := by
  rw [List.range_add, List.map_append, List.map_map]
  refine congrArg₂ (· ++ ·) ?_ ?_
  · exact List.map_congr_left fun k hk => hfirst k (List.mem_range.mp hk)
  · refine List.map_congr_left fun k hk => ?_
    rw [Nat.zero_add]
    exact hsecond k (List.mem_range.mp hk)

theorem copyOut_eq {n : Nat} (hn : n ≤ cap) :
    copyOut cap cells (pos % cap) n = (List.range n).map fun k => cells ((pos + k) % cap) := by
  rcases Nat.eq_zero_or_pos n with rfl | hpos
  · simp [copyOut, slice]
  have hlt := Nat.mod_lt pos (Nat.lt_of_lt_of_le hpos hn)
  have hidx (k : Nat) (hk : k < cap) : (pos + k) % cap =
      if pos % cap + k < cap then pos % cap + k else pos % cap + k - cap := index_eq hk
  generalize pos % cap = start at hlt hidx ⊢
  simp only [copyOut]
  split
  · next hmore =>
    rw [slice_append (f := fun k => cells ((pos + k) % cap)), Nat.add_sub_cancel' (by omega)]
    · intro k hk
      rw [hidx k (by omega), if_pos (by omega)]
    · intro k hk
      rw [hidx _ (by omega), if_neg (by omega)]
      congr 1
      omega
  · next hall =>
    rw [show min n (cap - start) = n by omega]
    refine List.map_congr_left fun k hk => ?_
    have hk := List.mem_range.mp hk
    rw [hidx k (by omega), if_pos (by omega)]

theorem Holds.copyOut {n : Nat} (h : Holds cap cells pos xs) (hn : n ≤ xs.length) (hcap : n ≤ cap) :
    Circular.copyOut cap cells (pos % cap) n = xs.take n := by
  rw [copyOut_eq hcap]
  refine List.ext_getElem (by simp [Nat.min_eq_left hn]) fun k hk _ => ?_
  rw [List.getElem_map, List.getElem_range, List.getElem_take]
  exact h k _

theorem Holds.drop (h : Holds cap cells pos xs) (n : Nat) :
    Holds cap cells (pos + n) (xs.drop n) := by
  intro k hk
  rw [List.getElem_drop, Nat.add_assoc]
  exact h (n + k) _

theorem Holds.append {ys : List α} (h : Holds cap cells pos xs)
    (h' : Holds cap cells (pos + xs.length) ys) : Holds cap cells pos (xs ++ ys) := by
  intro k hk
  by_cases hlt : k < xs.length
  · rw [List.getElem_append_left hlt]
    exact h k hlt
  · have hk' : k - xs.length < ys.length := by
      rw [List.length_append] at hk
      omega
    rw [List.getElem_append_right (Nat.not_lt.mp hlt), ← h' (k - xs.length) hk',
      show pos + xs.length + (k - xs.length) = pos + k by omega]

/-! ## A run is written cell by cell -/

theorem copyIn_beyond {i : Nat} (hlen : xs.length ≤ cap) (hstart : start ≤ cap) (hi : cap ≤ i) :
    copyIn cap cells start xs i = cells i := by
  simp only [copyIn]
  generalize hfirst : min xs.length (cap - start) = first
  have htake : (xs.take first).length ≤ first := List.length_take_le ..
  have hdrop : (xs.drop first).length = xs.length - first := List.length_drop
  split
  · rw [blit_of_ge (by omega), blit_of_ge (by omega)]
  · exact blit_of_ge (by omega)

/-- Every cell is the one of a position from `pos` on. -/
theorem exists_offset {i : Nat} (pos : Nat) (hi : i < cap) : ∃ k < cap, (pos + k) % cap = i := by
  have hlt := Nat.mod_lt pos (Nat.zero_lt_of_lt hi)
  rcases Nat.lt_or_ge i (pos % cap) with hbefore | hbehind
  · refine ⟨i + cap - pos % cap, by omega, ?_⟩
    rw [index_eq (by omega), if_neg (by omega)]
    omega
  · refine ⟨i - pos % cap, by omega, ?_⟩
    rw [index_eq (by omega), if_pos (by omega)]
    omega

theorem blit_nil (cells : Nat → α) (start : Nat) : blit cells start [] = cells := by
  funext i
  simp [blit]

theorem copyIn_nil (cells : Nat → α) (start : Nat) : copyIn cap cells start [] = cells := by
  simp [copyIn, blit_nil]

theorem copyIn_cons {x : α} (hlen : xs.length < cap) :
    copyIn cap cells (pos % cap) (x :: xs) =
      copyIn cap (Function.update cells (pos % cap) x) ((pos + 1) % cap) xs := by
  have hcap := Nat.zero_lt_of_lt hlen
  have hnext (k : Nat) : (pos + 1 + k) % cap = (pos + (k + 1)) % cap := by
    rw [Nat.add_right_comm, Nat.add_assoc]
  funext i
  rcases Nat.lt_or_ge i cap with hi | hi
  · obtain ⟨k, hk, rfl⟩ := exists_offset pos hi
    rw [copyIn_at (by exact hlen) hk]
    cases k with
    | zero =>
      -- the cell of the first element is a whole lap behind the rest
      have hlast : copyIn cap (Function.update cells (pos % cap) x) ((pos + 1) % cap) xs
          ((pos + 1 + (cap - 1)) % cap) = _ :=
        copyIn_at (Nat.le_of_lt hlen) (Nat.sub_lt hcap Nat.one_pos)
      rw [hnext, Nat.sub_add_cancel hcap, Nat.add_mod_right, List.getElem?_eq_none (by omega),
        Option.getD_none, Function.update_self] at hlast
      rw [Nat.add_zero, hlast]
      rfl
    | succ k =>
      have hne : (pos + (k + 1)) % cap ≠ pos % cap := by
        have hlt := Nat.mod_lt pos hcap
        rw [index_eq hk]
        split <;> omega
      rw [← hnext, copyIn_at (Nat.le_of_lt hlen) (Nat.lt_of_succ_lt hk), hnext,
        List.getElem?_cons_succ, Function.update_of_ne hne]
  · have hstart := Nat.mod_lt pos hcap
    have hstart' := Nat.mod_lt (pos + 1) hcap
    rw [copyIn_beyond hlen (Nat.le_of_lt hstart) hi,
      copyIn_beyond (Nat.le_of_lt hlen) (Nat.le_of_lt hstart') hi,
      Function.update_of_ne (by omega)]

/-- Positions less than a lap apart are in different cells. -/
theorem cells_ne {p q : Nat} (hlt : p < q) (hlap : q < p + cap) : p % cap ≠ q % cap := by
  have hmod := Nat.mod_lt p (show 0 < cap by omega)
  rw [show q = p + (q - p) by omega, index_eq (show q - p < cap by omega)]
  split <;> omega

namespace Buffer

theorem eq_of_fields {b b' : Buffer α cap} (hbuf : b.buf = b'.buf) (hhead : b.head = b'.head)
    (htail : b.tail = b'.tail) : b = b' := by
  cases b
  cases b'
  cases hbuf
  cases hhead
  cases htail
  rfl

theorem pushBatch_buf (b : Buffer α cap) (xs : List α) :
    (b.pushBatch xs).buf = copyIn cap b.buf b.tail xs := by
  have h := b.tail_lt
  simp only [pushBatch]
  by_cases hfit : b.tail + xs.length ≤ cap
  · rw [if_pos hfit, copyIn_of_fits hfit]
  · rw [if_neg hfit, copyIn_of_wraps (by omega)]

/-- A batch is a sequence of pushes. -/
theorem pushBatch_cons (b : Buffer α cap) {x : α} {xs : List α} (hlen : xs.length < cap) :
    b.pushBatch (x :: xs) = (b.push x).pushBatch xs := by
  refine eq_of_fields ?_ rfl ?_
  · have hcons : copyIn cap b.buf (b.tail % cap) (x :: xs) = _ := copyIn_cons hlen
    rw [Nat.mod_eq_of_lt b.tail_lt] at hcons
    rw [pushBatch_buf, pushBatch_buf, hcons]
    rfl
  · show (b.tail + (xs.length + 1)) % cap = ((b.tail + 1) % cap + xs.length) % cap
    rw [Nat.mod_add_mod, Nat.add_right_comm, Nat.add_assoc]

theorem pushBatch_nil (b : Buffer α cap) : b.pushBatch [] = b := by
  refine eq_of_fields ?_ rfl (Nat.mod_eq_of_lt b.tail_lt)
  rw [pushBatch_buf, copyIn_nil]

end Buffer

end Circular
