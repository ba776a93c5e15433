import Mathlib.Data.Set.Insert
import Mathlib.Data.Nat.ModEq
import Mathlib.Logic.Function.Basic

/-!
# Rings with a sequence number per cell

In a ring of `c` cells a producer claims the next position, writes the cell and publishes it; a
consumer claims the next published position, reads the cell and releases it. A position is claimed
on the ground of the cell's sequence number: `p` means free for position `p`, `p + 1` published.

A `View` is what has happened, by position, and `Valid` relates it to the cells. The lemmas say what
the numbers tell and that the operations keep the relation. For `c = 1` the numbers for published
and for free in the next lap are the same, so `Valid.free_of_seq` needs `2 ≤ c`.
-/

namespace SeqRing

variable {α : Type}

/-- What has happened at each position. -/
structure View (α : Type) where
  /-- The positions below are claimed by producers. -/
  enq : Nat
  /-- The positions below are claimed by consumers. -/
  deq : Nat
  /-- The value of a claimed position. -/
  val : Nat → Option α
  published : Set Nat
  released : Set Nat

def View.empty : View α := ⟨0, 0, fun _ => none, ∅, ∅⟩

def View.claimPush (v : View α) (x : α) : View α :=
  { v with enq := v.enq + 1, val := Function.update v.val v.enq (some x) }

def View.publish (v : View α) (p : Nat) : View α := { v with published := insert p v.published }

def View.claimPop (v : View α) : View α := { v with deq := v.deq + 1 }

def View.release (v : View α) (p : Nat) : View α := { v with released := insert p v.released }

/-- The cell of position `q` is free for it. -/
def Free (c : Nat) (v : View α) (q : Nat) : Prop := q < c ∨ q - c ∈ v.released

/-- The sequence number `x` of the cell whose next unclaimed position is `q`. -/
inductive SeqAt (c : Nat) (v : View α) (q x : Nat) : Prop
  | free (hf : Free c v q) (hx : x = q)
  | full (p : Nat) (hq : p + c = q) (hp : p ∈ v.published) (hr : p ∉ v.released) (hx : x = p + 1)
  | claimed (p : Nat) (hq : p + c = q) (hp : p ∉ v.published) (hx : x = p)

/-- The cells of the ring, `seq` and `data`, agree with the view. -/
structure Valid (c : Nat) (v : View α) (seq : Nat → Nat) (data : Nat → Option α) : Prop where
  deq_le : v.deq ≤ v.enq
  enq_le : v.enq ≤ v.deq + c
  published_lt : ∀ p ∈ v.published, p < v.enq
  published_of_lt : ∀ p < v.deq, p ∈ v.published
  released_lt : ∀ p ∈ v.released, p < v.deq
  released_of_lt : ∀ p, p + c < v.enq → p ∈ v.released
  seqAt : ∀ q, v.enq ≤ q → q < v.enq + c → SeqAt c v q (seq (q % c))
  value : ∀ p ∈ v.published, p ∉ v.released → data (p % c) = v.val p

/-- Two positions less than a lap apart share a cell only if they are equal. -/
theorem eq_of_mod_eq {c p q : Nat} (h : p % c = q % c) (hle : p ≤ q) (hlt : q < p + c) :
    p = q := by
  have hd : c ∣ q - p := (Nat.modEq_iff_dvd' hle).mp h
  have hz : q - p = 0 := Nat.eq_zero_of_dvd_of_lt hd (by omega)
  omega

/-- The cell of a position in use comes up again one lap later and not before. -/
theorem cell_ne {c n p q : Nat} (hle : n ≤ p + c) (hp : p < n) (hq : n ≤ q) (hlt : q < n + c)
    (hne : q ≠ p + c) : q % c ≠ p % c := by
  intro heq
  have heq' : (p + c) % c = q % c := by rw [Nat.add_mod_right, heq]
  rcases Nat.le_total (p + c) q with hle' | hle'
  · exact hne (eq_of_mod_eq heq' hle' (by omega)).symm
  · exact hne (eq_of_mod_eq heq'.symm hle' (by omega))

namespace Valid

variable {c : Nat} {v : View α} {seq : Nat → Nat} {data : Nat → Option α}

theorem empty (hseq : ∀ i < c, seq i = i) : Valid c View.empty seq data where
  deq_le := Nat.le_refl 0
  enq_le := Nat.zero_le _
  published_lt := by simp [View.empty]
  published_of_lt := by simp [View.empty]
  released_lt := by simp [View.empty]
  released_of_lt := by simp [View.empty]
  seqAt := by
    intro q _ hq
    have hq : q < c := by simpa [View.empty] using hq
    rw [Nat.mod_eq_of_lt hq, hseq q hq]
    exact .free (Or.inl hq) rfl
  value := by simp [View.empty]

/-! ## What the sequence numbers tell -/

variable {p : Nat}

section

variable (h : Valid c v seq data)

include h

/-- A position in use is less than a lap behind the next one to be claimed. -/
theorem enq_le_of_not_released (hp : p ∉ v.released) : v.enq ≤ p + c := by
  by_contra hlt
  exact hp (h.released_of_lt p (by omega))

/-- Two positions in use have different cells. -/
theorem eq_of_same_cell {q : Nat} (hp : p < v.enq) (hq : q < v.enq) (hp' : p ∉ v.released)
    (hq' : q ∉ v.released) (hcell : p % c = q % c) : p = q := by
  have h₁ := h.enq_le_of_not_released hp'
  have h₂ := h.enq_le_of_not_released hq'
  rcases Nat.le_total p q with hle | hle
  · exact eq_of_mod_eq hcell hle (by omega)
  · exact (eq_of_mod_eq hcell.symm hle (by omega)).symm

theorem not_published_enq : v.enq ∉ v.published :=
  fun hp => Nat.lt_irrefl _ (h.published_lt _ hp)

theorem published_of_released (hp : p ∈ v.released) : p ∈ v.published :=
  h.published_of_lt p (h.released_lt p hp)

theorem seqAt_enq (hc : 0 < c) : SeqAt c v v.enq (seq (v.enq % c)) :=
  h.seqAt v.enq (Nat.le_refl _) (by omega)

theorem seq_enq_le (hc : 0 < c) : seq (v.enq % c) ≤ v.enq := by
  cases h.seqAt_enq hc with
  | free _ hx | full p hq _ _ hx | claimed p hq _ hx => omega

/-- A producer that finds its own position in the cell may claim it. -/
theorem free_of_seq (hc : 2 ≤ c) (hs : seq (v.enq % c) = v.enq) : Free c v v.enq := by
  cases h.seqAt_enq (by omega) with
  | free hf _ => exact hf
  | full p hq _ _ hx | claimed p hq _ hx => omega

theorem seq_of_free (hc : 0 < c) (hf : Free c v v.enq) : seq (v.enq % c) = v.enq := by
  cases h.seqAt_enq hc with
  | free _ hx => exact hx
  | full p hq _ hr _ =>
    obtain rfl : p = v.enq - c := by omega
    exact absurd (hf.resolve_left (by omega)) hr
  | claimed p hq hp _ =>
    obtain rfl : p = v.enq - c := by omega
    exact absurd (h.published_of_released (hf.resolve_left (by omega))) hp

/-- A free cell means that fewer than `c` claimed positions wait for a consumer. -/
theorem lt_of_free (hf : Free c v v.enq) : v.enq < v.deq + c := by
  rcases hf with hlt | hr
  · omega
  · have := h.released_lt _ hr
    omega

theorem seqAt_of_lt (hp : p < v.enq) (hr : p ∉ v.released) : SeqAt c v (p + c) (seq (p % c)) := by
  have hle := h.enq_le_of_not_released hr
  have := h.seqAt (p + c) hle (by omega)
  rwa [Nat.add_mod_right] at this

/-- A position that is published and not released shows it. -/
theorem seq_of_published (hp : p ∈ v.published) (hr : p ∉ v.released) : seq (p % c) = p + 1 := by
  cases h.seqAt_of_lt (h.published_lt p hp) hr with
  | free hf _ =>
    rcases hf with hlt | hr'
    · omega
    · exact absurd (by simpa using hr') hr
  | full q hq _ _ hx =>
    obtain rfl : q = p := by omega
    exact hx
  | claimed q hq hp' _ =>
    obtain rfl : q = p := by omega
    exact absurd hp hp'

/-- A consumer that finds the successor of its position may claim it. -/
theorem published_of_seq (hc : 0 < c) (hs : seq (v.deq % c) = v.deq + 1) : v.deq ∈ v.published := by
  have hr : v.deq ∉ v.released := fun hr => Nat.lt_irrefl _ (h.released_lt _ hr)
  rcases Nat.lt_or_ge v.deq v.enq with hlt | hge
  · cases h.seqAt_of_lt hlt hr with
    | free hf _ =>
      rcases hf with hlt | hr'
      · omega
      · exact absurd (by simpa using hr') hr
    | full q hq hp _ _ =>
      obtain rfl : q = v.deq := by omega
      exact hp
    | claimed q hq _ hx => omega
  · have heq : v.enq = v.deq := Nat.le_antisymm hge h.deq_le
    have hat := h.seqAt_enq hc
    rw [heq, hs] at hat
    cases hat with
    | free _ hx | full p hq _ _ hx | claimed p hq _ hx => omega

/-- A consumer finds the number of a position at most one lap ahead. -/
theorem seq_deq_le (hc : 0 < c) : seq (v.deq % c) ≤ v.deq + c := by
  have hr : v.deq ∉ v.released := fun hr => Nat.lt_irrefl _ (h.released_lt _ hr)
  rcases Nat.lt_or_ge v.deq v.enq with hlt | hge
  · cases h.seqAt_of_lt hlt hr with
    | free _ hx | full p hq _ _ hx | claimed p hq _ hx => omega
  · have heq : v.enq = v.deq := Nat.le_antisymm hge h.deq_le
    have := h.seq_enq_le hc
    rw [heq] at this
    omega

/-- The cell of any position up to the next one to be claimed, at its next lap. -/
theorem seqAt_lap (hc : 0 < c) (hp : p ≤ v.enq) :
    ∃ k, p + c * k < v.enq + c ∧ SeqAt c v (p + c * k) (seq (p % c)) := by
  have hdiv := Nat.div_add_mod (v.enq - p + c - 1) c
  have hmod := Nat.mod_lt (v.enq - p + c - 1) hc
  refine ⟨(v.enq - p + c - 1) / c, by omega, ?_⟩
  have hat := h.seqAt (p + c * ((v.enq - p + c - 1) / c)) (by omega) (by omega)
  rwa [Nat.add_mul_mod_self_left] at hat

theorem seq_lt (hc : 0 < c) (hp : p ≤ v.enq) : seq (p % c) < v.enq + c := by
  obtain ⟨k, hlt, hat⟩ := h.seqAt_lap hc hp
  cases hat with
  | free _ hx | full q hq _ _ hx | claimed q hq _ hx => omega

/-- A producer that finds a smaller number than its position meets the lap before. -/
theorem unreleased_of_seq_lt (hc : 0 < c) (hp : p ≤ v.enq) (hs : seq (p % c) < p) :
    ∃ q, q + c = p ∧ q ∉ v.released := by
  obtain ⟨k, -, hat⟩ := h.seqAt_lap hc hp
  cases k with
  | zero =>
    rw [Nat.mul_zero, Nat.add_zero] at hat
    cases hat with
    | free _ hx => omega
    | full q hq _ hr _ => exact ⟨q, hq, hr⟩
    | claimed q hq hp _ => exact ⟨q, hq, fun hr => hp (h.published_of_released hr)⟩
  | succ k =>
    -- a later lap has a later number
    rw [Nat.mul_succ] at hat
    cases hat with
    | free _ hx | full q hq _ _ hx | claimed q hq _ hx => omega

/-! ## The operations -/

theorem claimPush (hc : 0 < c) (hf : Free c v v.enq) (x : α) :
    Valid c (v.claimPush x) seq data where
  deq_le := Nat.le_succ_of_le h.deq_le
  enq_le := h.lt_of_free hf
  published_lt := fun p hp => Nat.lt_succ_of_lt (h.published_lt p hp)
  published_of_lt := h.published_of_lt
  released_lt := h.released_lt
  released_of_lt := by
    intro p hp
    simp only [View.claimPush] at hp ⊢
    rcases Nat.lt_or_ge (p + c) v.enq with hlt | hge
    · exact h.released_of_lt p hlt
    · obtain rfl : p = v.enq - c := by omega
      exact hf.resolve_left (by omega)
  seqAt := by
    intro q hq hlt
    simp only [View.claimPush] at hq hlt
    rcases Nat.lt_or_ge q (v.enq + c) with hlt' | hge
    · -- the same cell as before the claim
      cases h.seqAt q (by omega) hlt' with
      | free hf hx => exact .free hf hx
      | full p hq hp hr hx => exact .full p hq hp hr hx
      | claimed p hq hp hx => exact .claimed p hq hp hx
    · obtain rfl : q = v.enq + c := by omega
      rw [Nat.add_mod_right, h.seq_of_free hc hf]
      exact .claimed v.enq rfl h.not_published_enq rfl
  value := by
    intro p hp hr
    have hne : p ≠ v.enq := Nat.ne_of_lt (h.published_lt p hp)
    simpa [View.claimPush, Function.update_of_ne hne] using h.value p hp hr

/-- Writing the cell of a claimed position touches no published value. -/
theorem write (hp : p < v.enq) (hnp : p ∉ v.published) (y : Option α) :
    Valid c v seq (Function.update data (p % c) y) :=
  { h with
    value := by
      intro q hq hr
      have hpr : p ∉ v.released := fun hr' => hnp (h.published_of_released hr')
      have hne : q % c ≠ p % c := by
        intro heq
        obtain rfl := h.eq_of_same_cell (h.published_lt q hq) hp hr hpr heq
        exact hnp hq
      rw [Function.update_of_ne hne]
      exact h.value q hq hr }

theorem publish (hp : p < v.enq) (hnp : p ∉ v.published) (hval : data (p % c) = v.val p) :
    Valid c (v.publish p) (Function.update seq (p % c) (p + 1)) data where
  deq_le := h.deq_le
  enq_le := h.enq_le
  published_lt := by
    rintro q (rfl | hq)
    · exact hp
    · exact h.published_lt q hq
  published_of_lt := fun q hq => Or.inr (h.published_of_lt q hq)
  released_lt := h.released_lt
  released_of_lt := h.released_of_lt
  seqAt := by
    intro q hq hlt
    simp only [View.publish] at hq hlt
    have hpr : p ∉ v.released := fun hr => hnp (h.published_of_released hr)
    have hle := h.enq_le_of_not_released hpr
    by_cases hqp : q = p + c
    · subst hqp
      rw [Nat.add_mod_right, Function.update_self]
      exact .full p rfl (Or.inl rfl) hpr rfl
    · rw [Function.update_of_ne (cell_ne hle hp hq hlt hqp)]
      cases h.seqAt q hq hlt with
      | free hf hx => exact .free hf hx
      | full r hr hpub hrel hx => exact .full r hr (Or.inr hpub) hrel hx
      | claimed r hr hpub hx =>
        refine .claimed r hr ?_ hx
        rintro (rfl | hpub')
        · exact hqp hr.symm
        · exact hpub hpub'
  value := by
    rintro q (rfl | hq) hr
    · exact hval
    · exact h.value q hq hr

theorem claimPop (hp : v.deq ∈ v.published) : Valid c v.claimPop seq data where
  deq_le := h.published_lt _ hp
  enq_le := Nat.le_trans h.enq_le (by simp only [View.claimPop]; omega)
  published_lt := h.published_lt
  published_of_lt := by
    intro q hq
    rcases Nat.lt_succ_iff_lt_or_eq.mp hq with hlt | rfl
    · exact h.published_of_lt q hlt
    · exact hp
  released_lt := fun q hq => Nat.lt_succ_of_lt (h.released_lt q hq)
  released_of_lt := h.released_of_lt
  seqAt := by
    intro q hq hlt
    cases h.seqAt q hq hlt with
    | free hf hx => exact .free hf hx
    | full p hq hp hr hx => exact .full p hq hp hr hx
    | claimed p hq hp hx => exact .claimed p hq hp hx
  value := h.value

theorem release (hp : p < v.deq) (hr : p ∉ v.released) :
    Valid c (v.release p) (Function.update seq (p % c) (p + c)) data where
  deq_le := h.deq_le
  enq_le := h.enq_le
  published_lt := h.published_lt
  published_of_lt := h.published_of_lt
  released_lt := by
    rintro q (rfl | hq)
    · exact hp
    · exact h.released_lt q hq
  released_of_lt := fun q hq => Or.inr (h.released_of_lt q hq)
  seqAt := by
    intro q hq hlt
    simp only [View.release] at hq hlt
    have hle := h.enq_le_of_not_released hr
    have hpe : p < v.enq := Nat.lt_of_lt_of_le hp h.deq_le
    by_cases hqp : q = p + c
    · subst hqp
      rw [Nat.add_mod_right, Function.update_self]
      exact .free (Or.inr (Or.inl (Nat.add_sub_cancel p c))) rfl
    · rw [Function.update_of_ne (cell_ne hle hpe hq hlt hqp)]
      cases h.seqAt q hq hlt with
      | free hf hx => exact .free (hf.imp_right Or.inr) hx
      | full r hr' hpub hrel hx =>
        refine .full r hr' hpub ?_ hx
        rintro (rfl | hrel')
        · exact hqp hr'.symm
        · exact hrel hrel'
      | claimed r hr' hpub hx => exact .claimed r hr' hpub hx
  value := fun q hq hr' => h.value q hq fun hin => hr' (Or.inr hin)

end

end Valid

/-! ## Rings at rest

Between operations everything claimed is published or released, and the ring
holds a list. -/

/-- The ring holds `l`, with no operation in progress. -/
structure Settled (c : Nat) (seq : Nat → Nat) (data : Nat → Option α) (l : List α)
    (v : View α) : Prop where
  valid : Valid c v seq data
  published : ∀ p, p ∈ v.published ↔ p < v.enq
  released : ∀ p, p ∈ v.released ↔ p < v.deq
  length : v.enq = v.deq + l.length
  value : ∀ k < l.length, v.val (v.deq + k) = l[k]?

namespace Settled

variable {c : Nat} {v : View α} {seq : Nat → Nat} {data : Nat → Option α} {l : List α}

theorem empty (hseq : ∀ i < c, seq i = i) : Settled c seq data [] View.empty where
  valid := Valid.empty hseq
  published := by simp [View.empty]
  released := by simp [View.empty]
  length := rfl
  value := by simp

section

variable (h : Settled c seq data l v)

include h

theorem length_le : l.length ≤ c := by
  have := h.valid.enq_le
  have := h.length
  omega

theorem free (hl : l.length < c) : Free c v v.enq := by
  by_cases hc : v.enq < c
  · exact Or.inl hc
  · refine Or.inr ((h.released _).mpr ?_)
    have := h.length
    omega

theorem seq_enq (hl : l.length < c) : seq (v.enq % c) = v.enq :=
  h.valid.seq_of_free (by omega) (h.free hl)

theorem deq_mem (hl : l ≠ []) : v.deq ∈ v.published ∧ v.deq ∉ v.released := by
  have hlen := h.length
  have hpos := List.length_pos_iff.mpr hl
  exact ⟨(h.published _).mpr (by omega), fun hr => Nat.lt_irrefl _ ((h.released _).mp hr)⟩

theorem seq_deq (hl : l ≠ []) : seq (v.deq % c) = v.deq + 1 :=
  h.valid.seq_of_published (h.deq_mem hl).1 (h.deq_mem hl).2

/-- A full ring shows the producer the oldest position, a lap behind. -/
theorem seq_enq_full (hl : l.length = c) (hc : 0 < c) : seq (v.enq % c) = v.deq + 1 := by
  rw [h.length, hl, Nat.add_mod_right]
  refine h.seq_deq ?_
  rintro rfl
  exact absurd hl (Nat.ne_of_lt hc)

end

theorem seq_deq_nil (h : Settled c seq data [] v) (hc : 0 < c) : seq (v.deq % c) = v.deq := by
  have heq : v.enq = v.deq := h.length
  rw [← heq]
  exact h.seq_enq hc

theorem data_deq {x : α} (h : Settled c seq data (x :: l) v) : data (v.deq % c) = some x := by
  obtain ⟨hp, hr⟩ := h.deq_mem (List.cons_ne_nil x l)
  have hval := h.value 0 (by simp)
  exact (h.valid.value _ hp hr).trans (by simpa using hval)

theorem data_at (h : Settled c seq data l v) {k : Nat} (hk : k < l.length) :
    data ((v.deq + k) % c) = l[k]? := by
  have hlen := h.length
  rw [← h.value k hk]
  exact h.valid.value _ ((h.published _).mpr (by omega))
    (fun hr => by have := (h.released _).mp hr; omega)

theorem push (h : Settled c seq data l v) (hl : l.length < c) (x : α) :
    Settled c (Function.update seq (v.enq % c) (v.enq + 1))
      (Function.update data (v.enq % c) (some x)) (l ++ [x])
      ((v.claimPush x).publish v.enq) := by
  have hlen := h.length
  have h₁ := h.valid.claimPush (by omega) (h.free hl) x
  have hlt : v.enq < (v.claimPush x).enq := Nat.lt_succ_self _
  have hnp : v.enq ∉ (v.claimPush x).published := h.valid.not_published_enq
  refine ⟨(h₁.write hlt hnp (some x)).publish hlt hnp (by simp [View.claimPush]), fun p => ?_,
    h.released, ?_, fun k hk => ?_⟩
  · simp only [View.publish, View.claimPush, Set.mem_insert_iff, h.published]
    omega
  · simp only [View.publish, View.claimPush, List.length_append, List.length_singleton]
    omega
  · simp only [List.length_append, List.length_singleton] at hk
    simp only [View.publish, View.claimPush]
    rcases Nat.lt_succ_iff_lt_or_eq.mp hk with hk | rfl
    · rw [Function.update_of_ne (by omega), List.getElem?_append_left hk]
      exact h.value k hk
    · rw [← hlen, Function.update_self]
      simp

theorem pop {x : α} (h : Settled c seq data (x :: l) v) :
    Settled c (Function.update seq (v.deq % c) (v.deq + c)) data l
      (v.claimPop.release v.deq) := by
  have hlen := h.length
  rw [List.length_cons] at hlen
  obtain ⟨hp, hr⟩ := h.deq_mem (List.cons_ne_nil x l)
  refine ⟨(h.valid.claimPop hp).release (Nat.lt_succ_self v.deq) hr, h.published, fun p => ?_, ?_,
    fun k hk => ?_⟩
  · simp only [View.release, View.claimPop, Set.mem_insert_iff, h.released]
    omega
  · simp only [View.release, View.claimPop]
    omega
  · have := h.value (k + 1) (by simpa using hk)
    simp only [View.release, View.claimPop]
    rw [Nat.add_assoc, Nat.add_comm 1 k, this, List.getElem?_cons_succ]

end Settled

end SeqRing
