import Dtact.Lib.Align
import Dtact.Scheduler.Basic

/-!
# Affinity groups

`enqueue_deflect` is to keep a `SameCCX` task in the group of 8 workers of its source, and a
`SameNUMA` task in the group of 64. The index in the group is moved by 1 to 14 places, and the
result is reduced modulo the number of workers.
-/

namespace Dtact.Scheduler

open DtaScheduler

/-! ## The masks -/

/-- `h1 + h2` -/
def flowShift (flowId : Nat) : Nat := (flowId &&& 7) + ((flowId >>> 3) &&& 7 ||| 1)

/-- `x ^ ((x ^ y) & mask)` selects one of two words. -/
theorem select_eq {x y : Nat} (hx : x < 2 ^ 64) (hy : y < 2 ^ 64) (p : Prop) [Decidable p] :
    x ^^^ ((x ^^^ y) &&& if p then 2 ^ 64 - 1 else 0) = if p then y else x := by
  split
  · rw [Nat.and_two_pow_sub_one_eq_mod, Nat.mod_eq_of_lt (Nat.xor_lt_two_pow hx hy),
      Nat.xor_xor_cancel_left]
  · rw [Nat.and_zero, Nat.xor_zero]

/-- The group of the source with a selected index in it. -/
theorem masked_eq {source y k : Nat} (hsource : source < 2 ^ 64) (hk : k ≤ 64) (hy : y < 2 ^ k)
    (p : Prop) [Decidable p] :
    (source &&& (2 ^ 64 - 1 - (2 ^ k - 1))) ||| ((source &&& (2 ^ k - 1)) ^^^
      (((source &&& (2 ^ k - 1)) ^^^ y) &&& if p then 2 ^ 64 - 1 else 0)) =
    source / 2 ^ k * 2 ^ k + if p then y else source % 2 ^ k := by
  have hpow : 2 ^ k ≤ 2 ^ 64 := Nat.pow_le_pow_right (by decide) hk
  have hmod : source % 2 ^ k < 2 ^ k := Nat.mod_lt _ (Nat.two_pow_pos k)
  have hbase : source &&& (2 ^ 64 - 1 - (2 ^ k - 1)) = source / 2 ^ k * 2 ^ k :=
    Align.down_eq hsource hk
  rw [hbase, Nat.and_two_pow_sub_one_eq_mod, select_eq (by omega) (by omega), Nat.mul_comm]
  refine (Nat.two_pow_add_eq_or_of_lt ?_ _).symm
  split
  · exact hy
  · exact hmod

section

variable {n : Nat} [NeZero n]

/-- The source worker is loaded above its threshold. -/
def Loaded (s : DtaScheduler n) (sourceCore : Nat) : Prop :=
  (s.workers (Fin.ofNat n sourceCore)).loadLevel >
    (s.workers (Fin.ofNat n sourceCore)).deflectionThreshold

instance (s : DtaScheduler n) (sourceCore : Nat) : Decidable (Loaded s sourceCore) :=
  inferInstanceAs (Decidable (_ > _))

/-- The index in a group of `size` that a task of the flow gets. -/
def groupIndex (s : DtaScheduler n) (size sourceCore flowId : Nat) : Nat :=
  if Loaded s sourceCore then (sourceCore % n % size + flowShift flowId) % size
  else sourceCore % n % size

theorem source_lt (hn : n ≤ 2 ^ 64) (sourceCore : Nat) :
    (Fin.ofNat n sourceCore).val < 2 ^ 64 :=
  (Fin.ofNat n sourceCore).isLt.trans_le hn

theorem target_sameCCX (hn : n ≤ 2 ^ 64) (s : DtaScheduler n) (sourceCore flowId : Nat) :
    (s.deflectTarget sourceCore flowId .sameCCX).val =
      (sourceCore % n / 8 * 8 + groupIndex s 8 sourceCore flowId) % n := by
  unfold deflectTarget groupIndex
  rw [if_neg (fun h => nomatch h.2), if_neg (fun h => nomatch h)]
  refine congrArg (· % n) ((masked_eq (k := 3) (source_lt hn sourceCore) (by decide) ?_
    (Loaded s sourceCore)).trans ?_)
  · exact Nat.lt_succ_of_le Nat.and_le_right
  · rw [Nat.add_assoc, Nat.and_two_pow_sub_one_eq_mod (n := 3),
      Nat.and_two_pow_sub_one_eq_mod (n := 3)]
    rfl

theorem target_sameNUMA (hn : n ≤ 2 ^ 64) (s : DtaScheduler n) (sourceCore flowId : Nat) :
    (s.deflectTarget sourceCore flowId .sameNUMA).val =
      (sourceCore % n / 64 * 64 + groupIndex s 64 sourceCore flowId) % n := by
  unfold deflectTarget groupIndex
  rw [if_neg (fun h => nomatch h.2), if_pos rfl]
  refine congrArg (· % n) ((masked_eq (k := 6) (source_lt hn sourceCore) (by decide) ?_
    (Loaded s sourceCore)).trans ?_)
  · exact Nat.mod_lt _ (by decide)
  · rw [Nat.add_assoc, Nat.and_two_pow_sub_one_eq_mod (n := 6)]
    rfl

theorem groupIndex_lt {size : Nat} (hsize : 0 < size) (s : DtaScheduler n)
    (sourceCore flowId : Nat) : groupIndex s size sourceCore flowId < size := by
  unfold groupIndex
  split <;> exact Nat.mod_lt _ hsize

/-! ## The reduction modulo the number of workers -/

omit [NeZero n] in
/-- When the reduction stays in the group. -/
theorem group_mod_iff {source size i : Nat} (hsource : source < n) (hi : i < size) :
    (source / size * size + i) % n / size = source / size ↔
      source < size ∨ source / size * size + i < n := by
  have hsize : 0 < size := Nat.zero_lt_of_lt hi
  have hbase : source / size * size ≤ source := Nat.div_mul_le_self ..
  constructor
  · intro h
    by_contra hnot
    obtain ⟨hge, hover⟩ := not_or.mp hnot
    rw [Nat.not_lt] at hge hover
    -- the index of a missing worker wraps around into the first group
    have hpos : 0 < source / size := Nat.div_pos hge hsize
    have hle : size ≤ source / size * size := Nat.le_mul_of_pos_left _ hpos
    have hwrap : (source / size * size + i) % n = source / size * size + i - n := by
      rw [Nat.mod_eq_sub_mod hover]
      exact Nat.mod_eq_of_lt (by omega)
    rw [hwrap, Nat.div_eq_of_lt (by omega)] at h
    omega
  · rintro (hlt | hlt)
    · rw [Nat.div_eq_of_lt hlt, Nat.zero_mul, Nat.zero_add]
      exact Nat.div_eq_of_lt ((Nat.mod_le i n).trans_lt hi)
    · rw [Nat.mod_eq_of_lt hlt, Nat.mul_comm, Nat.mul_add_div hsize, Nat.div_eq_of_lt hi,
        Nat.add_zero]

/-- A task of the group size `size` stays in the group of its source, and with the source
itself as long as that one is not loaded. -/
structure KeepsGroup (s : DtaScheduler n) (sourceCore flowId : Nat) (affinity : Affinity)
    (size : Nat) : Prop where
  group : (s.deflectTarget sourceCore flowId affinity).val / size = sourceCore % n / size
  stays : ¬ Loaded s sourceCore →
    s.deflectTarget sourceCore flowId affinity = Fin.ofNat n sourceCore

/-- A loaded source takes an index of its group that must be the one of a worker, unless the group
is the first one. -/
theorem keepsGroup_iff {s : DtaScheduler n} {sourceCore flowId size : Nat} {affinity : Affinity}
    (hsize : 0 < size)
    (htarget : (s.deflectTarget sourceCore flowId affinity).val =
      (sourceCore % n / size * size + groupIndex s size sourceCore flowId) % n) :
    KeepsGroup s sourceCore flowId affinity size ↔ ¬ Loaded s sourceCore ∨ sourceCore % n < size ∨
      sourceCore % n / size * size + (sourceCore % n % size + flowShift flowId) % size < n := by
  have hsource : sourceCore % n < n := Nat.mod_lt _ (Nat.pos_of_neZero n)
  have hgroup : KeepsGroup s sourceCore flowId affinity size ↔ sourceCore % n < size ∨
      sourceCore % n / size * size + groupIndex s size sourceCore flowId < n := by
    rw [← group_mod_iff hsource (groupIndex_lt hsize s sourceCore flowId), ← htarget]
    refine ⟨fun h => h.group, fun h => ⟨h, fun hquiet => Fin.ext ?_⟩⟩
    rw [htarget, groupIndex, if_neg hquiet, Nat.div_add_mod', Nat.mod_mod]
    rfl
  rw [hgroup, groupIndex]
  by_cases hloaded : Loaded s sourceCore
  · rw [if_pos hloaded, eq_false (not_not.mpr hloaded), false_or]
  · rw [if_neg hloaded, Nat.div_add_mod']
    exact iff_of_true (.inr hsource) (.inl hloaded)

/-- **When deflection keeps the group.** For every source, flow, load and threshold: a `SameCCX`
task stays in the CCX of its source, and a `SameNUMA` task in the NUMA node, exactly if the source
is not loaded above its threshold, or is in the first group, or the index `h1 + h2` places further
on in its group is the one of a worker. -/
theorem deflection_keeps_group_iff (hn : n ≤ 2 ^ 64) (s : DtaScheduler n)
    (sourceCore flowId : Nat) :
    (KeepsGroup s sourceCore flowId .sameCCX 8 ↔ ¬ Loaded s sourceCore ∨ sourceCore % n < 8 ∨
      sourceCore % n / 8 * 8 + (sourceCore % n % 8 + flowShift flowId) % 8 < n) ∧
    (KeepsGroup s sourceCore flowId .sameNUMA 64 ↔ ¬ Loaded s sourceCore ∨ sourceCore % n < 64 ∨
      sourceCore % n / 64 * 64 + (sourceCore % n % 64 + flowShift flowId) % 64 < n) :=
  ⟨keepsGroup_iff (by decide) (target_sameCCX hn s sourceCore flowId),
    keepsGroup_iff (by decide) (target_sameNUMA hn s sourceCore flowId)⟩

end

/-- A new scheduler with all workers at full load. -/
def overloaded (n : Nat) [NeZero n] : DtaScheduler n :=
  { DtaScheduler.new n .p2pMesh with
    workers := fun i => { (DtaScheduler.new n .p2pMesh).workers i with loadLevel := 100 } }

theorem loaded_overloaded (n : Nat) [NeZero n] (sourceCore : Nat) :
    Loaded (overloaded n) sourceCore := by
  show 80 < 100
  decide

/-- Worker 11 of 12 deflects the flow 4 to worker 8, in the same CCX; of 100 workers, worker 70
deflects in the second NUMA node. -/
theorem deflection_keeps_group_iff_flow :
    Loaded (overloaded 12) 11 ∧ (overloaded 12).deflectTarget 11 4 .sameCCX = 8 ∧
      KeepsGroup (overloaded 12) 11 4 .sameCCX 8 ∧
      KeepsGroup (overloaded 100) 70 4 .sameNUMA 64 :=
  ⟨loaded_overloaded 12 11, by decide +kernel,
    (deflection_keeps_group_iff (by decide) (overloaded 12) 11 4).1.mpr (by decide),
    (deflection_keeps_group_iff (by decide) (overloaded 100) 70 4).2.mpr (by decide)⟩

/-- With 12 workers, the second CCX has four: worker 11 deflects to worker 0. -/
theorem deflection_leaves_ccx :
    Loaded (overloaded 12) 11 ∧ (overloaded 12).deflectTarget 11 0 .sameCCX = 0 ∧
      ¬ KeepsGroup (overloaded 12) 11 0 .sameCCX 8 := by
  have htarget : (overloaded 12).deflectTarget 11 0 .sameCCX = 0 := by decide +kernel
  refine ⟨loaded_overloaded 12 11, htarget, fun h => ?_⟩
  have hgroup := h.group
  rw [htarget] at hgroup
  exact absurd hgroup (by decide)

end Dtact.Scheduler
