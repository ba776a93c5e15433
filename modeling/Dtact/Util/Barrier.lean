import Mathlib.Data.Fintype.Basic
import Mathlib.Data.List.Pairwise
import Mathlib.Data.List.Perm.Subperm
import Dtact.Lib.Transition
import Dtact.Util.WaitQueue
import Dtact.Words

/-!
# `Barrier`

A call of `wait` loads the generation, counts itself with `fetch_add` and, when it is the `n`-th,
resets the counter, bumps the generation and wakes all waiters. The others wait until the generation
differs. Each of these operations is one step. Calls are numbered.
-/

namespace Dtact.Barrier

open Transition

/-- Where a call of `wait` is, named after the operation it performs next: `add` and `reset` are
on `count`, `bump`, `check` and `recheck` on `generation`. -/
inductive Pc
  | idle
  | add (observed : Nat)
  | reset
  | bump
  | wakeAll
  | check (observed : Nat)
  | register (observed : Nat)
  | recheck (observed token : Nat)
  | cancel (token : Nat)
  | pending (observed : Nat)
  | done (isLeader : Bool)
deriving DecidableEq

structure St (ι : Type) where
  count : Nat
  generation : Nat
  wait : WaitQueue ι
  pc : ι → Pc

variable {ι : Type}

def St.new : St ι := ⟨0, 0, .new, fun _ => .idle⟩

/-- The number of participants that `Barrier::new` makes of its argument. -/
def participants (n : Nat) : Nat := if n = 0 then 1 else n

/-- `wait` begins a call with the load of the generation, `poll` polls a pending one again, and
`run` is the next operation of a call. -/
inductive Act (ι : Type)
  | wait (i : ι)
  | poll (i : ι)
  | run (i : ι)

section

variable [DecidableEq ι]

def St.goto (s : St ι) (i : ι) (pc : Pc) : St ι := { s with pc := Function.update s.pc i pc }

@[simp]
theorem St.goto_pc_self (s : St ι) (i : ι) (pc : Pc) : (s.goto i pc).pc i = pc := by
  simp only [St.goto, Function.update_self]

theorem St.goto_pc_of_ne (s : St ι) {i j : ι} (pc : Pc) (hne : j ≠ i) :
    (s.goto i pc).pc j = s.pc j := by
  simp only [St.goto, Function.update_of_ne hne]

def run (n : Nat) (i : ι) (s : St ι) : Pc → Option (St ι)
  | .idle | .pending _ | .done _ => none
  | .add observed =>
    let arrived := wrappingAdd s.count 1
    if arrived = n then some { s.goto i .reset with count := arrived }
    else some { s.goto i (.check observed) with count := arrived }
  | .reset => some { s.goto i .bump with count := 0 }
  | .bump => some { s.goto i .wakeAll with generation := wrappingAdd s.generation 1 }
  | .wakeAll => some { s.goto i (.done true) with wait := s.wait.wakeAll.2 }
  | .check observed =>
    if s.generation ≠ observed then some (s.goto i (.done false))
    else some (s.goto i (.register observed))
  | .register observed =>
    let (token, wait) := s.wait.register i
    some { s.goto i (.recheck observed token.number) with wait }
  | .recheck observed token =>
    if s.generation ≠ observed then some (s.goto i (.cancel token))
    else some (s.goto i (.pending observed))
  | .cancel token => some { s.goto i (.done false) with wait := s.wait.cancel ⟨token, i⟩ }

def step (n : Nat) : Act ι → St ι → Option (St ι)
  | .wait i, s =>
    match s.pc i with
    | .idle => some (s.goto i (.add s.generation))
    | _ => none
  | .poll i, s =>
    match s.pc i with
    | .pending observed => some (s.goto i (.check observed))
    | _ => none
  | .run i, s => Barrier.run n i s (s.pc i)

end

/-! ## Groups -/

structure Hist (ι : Type) where
  begun : List ι
  /-- The calls that have returned, with the calls that had begun by then. -/
  returned : List (ι × List ι)

/-- The next operation of the call is its last. -/
def Pc.returns (generation : Nat) : Pc → Bool
  | .wakeAll | .cancel _ => true
  | .check observed => generation ≠ observed
  | _ => false

def upd (a : Act ι) (s : St ι) (h : Hist ι) : Hist ι :=
  match a with
  | .wait i => { h with begun := i :: h.begun }
  | .poll _ => h
  | .run i =>
    if (s.pc i).returns s.generation then { h with returned := (i, h.begun) :: h.returned } else h

structure IsGrouping (n : Nat) (s : St ι) (h : Hist ι) (groups : List (List ι)) : Prop where
  disjoint : groups.flatten.Nodup
  size : ∀ g ∈ groups, g.length = n
  covers : ∀ i isLeader, s.pc i = .done isLeader → ∃ g ∈ groups, i ∈ g
  /-- One call of the group returns `is_leader` and no other. -/
  leader : ∀ g ∈ groups, ∃ l ∈ g, ∀ i ∈ g, ∀ isLeader, s.pc i = .done isLeader →
    (isLeader = true ↔ i = l)
  /-- When a call returns, all calls of its group have begun. -/
  together : ∀ g ∈ groups, ∀ i ∈ g, ∀ begun, (i, begun) ∈ h.returned → ∀ j ∈ g, j ∈ begun

/-! ## The condition -/

/-- The call is between its last `fetch_add` and the bump. -/
def Pc.releases : Pc → Bool
  | .reset | .bump => true
  | _ => false

/-- A call that counts itself does so in the generation it has loaded, and not while a leader
has still to reset the counter or to bump the generation. -/
def Pc.InTime (s : St ι) : Pc → Prop
  | .add observed => s.generation = observed ∧ ∀ j, (s.pc j).releases = false
  | _ => True

def ArrivesInTime (s : St ι) : Act ι → Prop
  | .run i => (s.pc i).InTime s
  | .wait _ | .poll _ => True

instance [Fintype ι] (s : St ι) : (pc : Pc) → Decidable (pc.InTime s)
  | .add _ => inferInstanceAs (Decidable (_ ∧ ∀ _, _ = false))
  | .idle | .reset | .bump | .wakeAll | .check _ | .register _ | .recheck _ _ | .cancel _
  | .pending _ | .done _ => inferInstanceAs (Decidable True)

instance [Fintype ι] (s : St ι) : (a : Act ι) → Decidable (ArrivesInTime s a)
  | .run i => inferInstanceAs (Decidable ((s.pc i).InTime s))
  | .wait _ | .poll _ => inferInstanceAs (Decidable True)

section

variable [DecidableEq ι]

/-- Runs of the barrier that `Barrier::new` makes for `n`. -/
abbrev BarrierRun (n : Nat) (ok : St ι → Act ι → Prop) : List (Act ι) → St ι × Hist ι → Prop :=
  Run (initHist (· = St.new) ⟨[], []⟩) (withHist (step (participants n)) upd) fun p a => ok p.1 a

end

/-! ## The invariant -/

/-- What is known of a call. `closed` are the full groups, one for each generation before, with
the leader first; `cur` are the calls that have counted themselves since. -/
def PcOk (n : Nat) (closed : List (List ι)) (cur : List ι) (i : ι) : Pc → Prop
  | .idle | .add _ => i ∉ closed.flatten ++ cur
  | .reset | .bump => cur.head? = some i ∧ cur.length = n
  | .check observed | .register observed | .recheck observed _ | .pending observed =>
    (∃ k g, closed[k]? = some g ∧ i ∈ g ∧ g.head? ≠ some i ∧ observed = k % usizeMod) ∨
      (i ∈ cur ∧ observed = closed.length % usizeMod)
  | .cancel _ | .done false => ∃ g ∈ closed, i ∈ g ∧ g.head? ≠ some i
  | .wakeAll | .done true => ∃ g ∈ closed, g.head? = some i

structure Inv (n : Nat) (closed : List (List ι)) (cur : List ι) (s : St ι) (h : Hist ι) :
    Prop where
  generation : s.generation = closed.length % usizeMod
  nodup : (closed.flatten ++ cur).Nodup
  size : ∀ g ∈ closed, g.length = n
  pc : ∀ i, PcOk n closed cur i (s.pc i)
  unique : ∀ i j, (s.pc i).releases → (s.pc j).releases → i = j
  count : (∀ i, (s.pc i).releases = false) → s.count = cur.length ∧ cur.length < n
  reset : ∀ i, s.pc i = .bump → s.count = 0
  begun : ∀ i, s.pc i ≠ .idle → i ∈ h.begun
  returned : ∀ r ∈ h.returned, ∃ isLeader, s.pc r.1 = .done isLeader
  together : ∀ g ∈ closed, ∀ i ∈ g, ∀ begun, (i, begun) ∈ h.returned → ∀ j ∈ g, j ∈ begun

section

variable {n : Nat} {closed : List (List ι)} {cur : List ι} {s : St ι} {h : Hist ι} {i : ι}

variable {observed : Nat} {pc : Pc}

/-- A waiting call that sees the generation changed belongs to a closed group. -/
theorem Inv.released (hinv : Inv n closed cur s h) (hpc : PcOk n closed cur i (.pending observed))
    (hne : s.generation ≠ observed) : ∃ g ∈ closed, i ∈ g ∧ g.head? ≠ some i := by
  rcases hpc with ⟨k, g, hg, hi, hhead, -⟩ | ⟨-, rfl⟩
  · exact ⟨g, List.mem_of_getElem? hg, hi, hhead⟩
  · exact absurd hinv.generation hne

/-- A call that has returned belongs to a closed group. -/
theorem Inv.not_mem_cur_of_returned (hinv : Inv n closed cur s h) {begun : List ι}
    (hr : (i, begun) ∈ h.returned) : i ∉ cur := by
  obtain ⟨isLeader, hdone⟩ := hinv.returned _ hr
  have hpc := hinv.pc i
  rw [hdone] at hpc
  obtain ⟨g, hg, hi⟩ : ∃ g ∈ closed, i ∈ g := by
    cases isLeader with
    | false => exact hpc.imp fun _ hg => ⟨hg.1, hg.2.1⟩
    | true => exact hpc.imp fun _ hg => ⟨hg.1, List.mem_of_mem_head? hg.2⟩
  exact (List.nodup_append'.mp hinv.nodup).2.2 (List.mem_flatten_of_mem hg hi)

theorem Inv.member_begun (hinv : Inv n closed cur s h) (hi : i ∈ closed.flatten ++ cur) :
    i ∈ h.begun := by
  refine hinv.begun i fun hidle => ?_
  have hpc := hinv.pc i
  rw [hidle] at hpc
  exact hpc hi

/-- While nobody releases, a call that counts itself changes nothing for the others. -/
theorem PcOk.join {j : ι} (hpc : PcOk n closed cur j pc) (hne : j ≠ i)
    (hreleases : pc.releases = false) : PcOk n closed (i :: cur) j pc := by
  cases pc with
  | idle | add =>
    simp only [PcOk, List.mem_append, List.mem_cons, not_or] at hpc ⊢
    exact ⟨hpc.1, hne, hpc.2⟩
  | reset | bump => cases hreleases
  | check | register | recheck | pending =>
    exact hpc.imp_right fun ⟨hj, hobserved⟩ => ⟨List.mem_cons_of_mem i hj, hobserved⟩
  | wakeAll | cancel => exact hpc
  | done isLeader => cases isLeader <;> exact hpc

/-- When the leader bumps the generation, the current group is closed for the others. -/
theorem PcOk.close {j : ι} (hpc : PcOk n closed cur j pc) (hhead : cur.head? = some i) (hne : j ≠ i)
    (hreleases : pc.releases = false) : PcOk n (closed ++ [cur]) [] j pc := by
  have hsome {p : List ι → Prop} : (∃ g ∈ closed, p g) → ∃ g ∈ closed ++ [cur], p g :=
    fun ⟨g, hg, hp⟩ => ⟨g, List.mem_append_left _ hg, hp⟩
  cases pc with
  | idle | add => simpa only [PcOk, List.flatten_concat, List.append_nil] using hpc
  | reset | bump => cases hreleases
  | check | register | recheck | pending =>
    refine .inl ?_
    rcases hpc with ⟨k, g, hg, hj⟩ | ⟨hj, hobserved⟩
    · exact ⟨k, g, List.getElem?_append_left (List.getElem?_eq_some_iff.mp hg).1 ▸ hg, hj⟩
    · refine ⟨closed.length, cur, List.getElem?_concat_length, hj, ?_, hobserved⟩
      rw [hhead]
      exact fun heq => hne (Option.some.inj heq).symm
  | wakeAll | cancel => exact hsome hpc
  | done isLeader => cases isLeader <;> exact hsome hpc

theorem inv_new (hn : 1 ≤ n) : Inv n [] [] (St.new (ι := ι)) ⟨[], []⟩ where
  generation := rfl
  nodup := List.nodup_nil
  size := by simp
  pc := fun i => List.not_mem_nil
  unique := fun i j hi => absurd hi Bool.false_ne_true
  count := fun _ => ⟨rfl, hn⟩
  reset := fun i hi => by cases hi
  begun := fun i hi => absurd rfl hi
  returned := by simp
  together := by simp

theorem eq_of_mem_group {groups : List (List ι)} {g g' : List ι} (hdisjoint : groups.flatten.Nodup)
    (hg : g ∈ groups) (hg' : g' ∈ groups) (hi : i ∈ g) (hi' : i ∈ g') : g = g' := by
  by_contra hne
  have hsymm : Std.Symm (List.Disjoint : List ι → List ι → Prop) :=
    ⟨fun _ _ => List.disjoint_symm⟩
  exact (List.nodup_flatten.mp hdisjoint).2.forall hg hg' hne hi hi'

/-- The closed groups are a grouping of the completed calls, led by the first of each. -/
theorem Inv.isGrouping (hinv : Inv n closed cur s h) (hn : 1 ≤ n) : IsGrouping n s h closed := by
  have hdisjoint := (List.nodup_append'.mp hinv.nodup).1
  refine ⟨hdisjoint, hinv.size, fun i isLeader hdone => ?_, fun g hg => ?_, hinv.together⟩
  · have hpc := hinv.pc i
    rw [hdone] at hpc
    cases isLeader with
    | false => exact hpc.imp fun _ hg => ⟨hg.1, hg.2.1⟩
    | true => exact hpc.imp fun _ hg => ⟨hg.1, List.mem_of_mem_head? hg.2⟩
  · obtain ⟨l, rest, rfl⟩ := List.exists_cons_of_length_pos (hn.trans_eq (hinv.size g hg).symm)
    refine ⟨l, List.mem_cons_self, fun i hi isLeader hdone => ?_⟩
    have hpc := hinv.pc i
    rw [hdone] at hpc
    cases isLeader with
    | false =>
      obtain ⟨g', hg', hi', hhead⟩ := hpc
      obtain rfl := eq_of_mem_group hdisjoint hg hg' hi hi'
      simpa [eq_comm] using hhead
    | true =>
      obtain ⟨g', hg', hhead⟩ := hpc
      obtain rfl := eq_of_mem_group hdisjoint hg hg' hi (List.mem_of_mem_head? hhead)
      simpa [eq_comm] using hhead

variable [DecidableEq ι] {s' : St ι}

theorem Inv.begun_goto (hinv : Inv n closed cur s h) (hbegun : i ∈ h.begun) (j : ι)
    (hj : (s.goto i pc).pc j ≠ .idle) : j ∈ h.begun := by
  rcases eq_or_ne j i with rfl | hne
  · exact hbegun
  · exact hinv.begun j ((St.goto_pc_of_ne s pc hne).symm.trans_ne hj)

theorem Inv.returned_goto (hinv : Inv n closed cur s h)
    (hdone : ∀ isLeader, s.pc i ≠ .done isLeader) (r : ι × List ι) (hr : r ∈ h.returned) :
    ∃ isLeader, (s.goto i pc).pc r.1 = .done isLeader := by
  obtain ⟨isLeader, hr⟩ := hinv.returned r hr
  have hne : r.1 ≠ i := fun heq => hdone isLeader (heq ▸ hr)
  exact ⟨isLeader, (St.goto_pc_of_ne s pc hne).trans hr⟩

/-- What holds of a call after it moves and of the others as they are, holds of all. -/
theorem St.goto_forall {p : ι → Pc → Prop} (hi : p i pc) (hothers : ∀ j, j ≠ i → p j (s.pc j))
    (j : ι) : p j ((s.goto i pc).pc j) := by
  rcases eq_or_ne j i with rfl | hne
  · rwa [St.goto_pc_self]
  · rw [St.goto_pc_of_ne s pc hne]
    exact hothers j hne

section

variable (hinv : Inv n closed cur s h)

include hinv

theorem Inv.goto (hbegun : i ∈ h.begun) (hpc : PcOk n closed cur i pc)
    (hreleases : (s.pc i).releases = false) (hnot : pc.releases = false)
    (hdone : ∀ isLeader, s.pc i ≠ .done isLeader) : Inv n closed cur (s.goto i pc) h := by
  have hsame (j : ι) : ((s.goto i pc).pc j).releases = (s.pc j).releases :=
    St.goto_forall (p := fun j pc => pc.releases = (s.pc j).releases) (hnot.trans hreleases.symm)
      (fun _ _ => rfl) j
  refine { hinv with
    pc := St.goto_forall hpc fun j _ => hinv.pc j
    unique := fun j k hj hk => hinv.unique j k (hsame j ▸ hj) (hsame k ▸ hk)
    count := fun hnone => hinv.count fun j => (hsame j).symm.trans (hnone j)
    reset := fun j hj => ?_
    begun := hinv.begun_goto hbegun
    returned := hinv.returned_goto hdone }
  have hne : j ≠ i := by
    rintro rfl
    rw [St.goto_pc_self] at hj
    exact absurd ((congrArg Pc.releases hj).symm.trans hnot) (by decide)
  rw [St.goto_pc_of_ne s pc hne] at hj
  exact hinv.reset j hj

/-- A call returns: its group is closed, so all of its calls have begun. -/
theorem Inv.goto_done (hbegun : i ∈ h.begun) {isLeader : Bool}
    (hpc : PcOk n closed cur i (.done isLeader)) (hreleases : (s.pc i).releases = false)
    (hdone : ∀ isLeader, s.pc i ≠ .done isLeader) :
    Inv n closed cur (s.goto i (.done isLeader))
      { h with returned := (i, h.begun) :: h.returned } := by
  have hinv' := hinv.goto hbegun hpc hreleases rfl hdone
  refine { hinv' with
    returned := fun r hr => ?_
    together := fun g hg j hj begun hr k hk => ?_ }
  · rcases List.mem_cons.mp hr with rfl | hr
    · exact ⟨isLeader, St.goto_pc_self s i _⟩
    · exact hinv'.returned r hr
  · rcases List.mem_cons.mp hr with heq | hr
    · obtain ⟨rfl, rfl⟩ := Prod.mk.inj heq
      exact hinv.member_begun (List.mem_append_left _ (List.mem_flatten_of_mem hg hk))
    · exact hinv.together g hg j hj begun hr k hk

/-- A call that counts itself joins the current group. It is the only one that may have to
release the group. -/
theorem Inv.join (hpc : s.pc i = .add observed) (hnone : ∀ j, (s.pc j).releases = false)
    (hpc' : PcOk n closed (i :: cur) i pc) (hbump : pc ≠ .bump)
    (hmore : pc.releases = false → cur.length + 1 < n) :
    Inv n closed (i :: cur) { s.goto i pc with count := cur.length + 1 } h := by
  have hreleases (j : ι) (hj : ((s.goto i pc).pc j).releases) : j = i := by
    by_contra hne
    rw [St.goto_pc_of_ne s pc hne, hnone j] at hj
    cases hj
  have hnew : i ∉ closed.flatten ++ cur := by
    have hi := hinv.pc i
    rwa [hpc] at hi
  refine { hinv with
    nodup := List.nodup_middle.mpr (List.nodup_cons.mpr ⟨hnew, hinv.nodup⟩)
    pc := St.goto_forall hpc' fun j hne => (hinv.pc j).join hne (hnone j)
    unique := fun j k hj hk => (hreleases j hj).trans (hreleases k hk).symm
    count := fun hnone' => ⟨rfl, hmore (St.goto_pc_self s i pc ▸ hnone' i)⟩
    reset := fun j hj => ?_
    begun := hinv.begun_goto (hinv.begun i (hpc.trans_ne Pc.noConfusion))
    returned := hinv.returned_goto fun _ => hpc.trans_ne Pc.noConfusion }
  obtain rfl := hreleases j (congrArg Pc.releases hj)
  exact absurd ((St.goto_pc_self s j pc).symm.trans hj) hbump

/-- `fetch_add`: the calls of the current group are counted as long as it is not full. -/
theorem Inv.arrive (hn : n < usizeMod) (hpc : s.pc i = .add observed)
    (hgen : s.generation = observed) (hnone : ∀ j, (s.pc j).releases = false)
    (hst : run n i s (.add observed) = some s') : Inv n closed (i :: cur) s' h := by
  obtain ⟨hcount, hlt⟩ := hinv.count hnone
  have harrived : wrappingAdd s.count 1 = cur.length + 1 := by
    rw [hcount]
    exact Nat.mod_eq_of_lt (by omega)
  simp only [run, harrived] at hst
  split at hst
  · next hfull =>
    cases hst
    exact hinv.join hpc hnone ⟨rfl, hfull⟩ Pc.noConfusion Bool.noConfusion
  · next hmore =>
    cases hst
    have hi : i ∈ i :: cur ∧ observed = closed.length % usizeMod :=
      ⟨List.mem_cons_self, hgen.symm.trans hinv.generation⟩
    exact hinv.join hpc hnone (.inr hi) Pc.noConfusion fun _ => lt_of_le_of_ne hlt hmore

theorem Inv.reset_count (hpc : s.pc i = .reset) :
    Inv n closed cur { s.goto i .bump with count := 0 } h := by
  have hi : PcOk n closed cur i .bump := by
    have hi := hinv.pc i
    rwa [hpc] at hi
  have hsame (j : ι) : ((s.goto i .bump).pc j).releases = (s.pc j).releases :=
    St.goto_forall (p := fun j pc => pc.releases = (s.pc j).releases) (by rw [hpc]; rfl)
      (fun _ _ => rfl) j
  exact { hinv with
    pc := St.goto_forall hi fun j _ => hinv.pc j
    unique := fun j k hj hk => hinv.unique j k (hsame j ▸ hj) (hsame k ▸ hk)
    count := fun hnone => absurd ((hsame i).symm.trans (hnone i)) (by simp [hpc, Pc.releases])
    reset := fun _ _ => rfl
    begun := hinv.begun_goto (hinv.begun i (hpc.trans_ne Pc.noConfusion))
    returned := hinv.returned_goto fun _ => hpc.trans_ne Pc.noConfusion }

theorem Inv.close (hn : 1 ≤ n) (hpc : s.pc i = .bump) :
    Inv n (closed ++ [cur]) []
      { s.goto i .wakeAll with generation := wrappingAdd s.generation 1 } h := by
  obtain ⟨hhead, hsize⟩ : cur.head? = some i ∧ cur.length = n := by
    have hi := hinv.pc i
    rwa [hpc] at hi
  have hothers (j : ι) (hne : j ≠ i) : (s.pc j).releases = false := by
    by_contra hj
    exact hne (hinv.unique j i (Bool.eq_true_of_not_eq_false hj) (hpc ▸ rfl))
  have hnone (j : ι) : ((s.goto i .wakeAll).pc j).releases = false :=
    St.goto_forall (p := fun _ pc => pc.releases = false) rfl hothers j
  have hflatten : (closed ++ [cur]).flatten ++ [] = closed.flatten ++ cur := by simp
  refine {
    generation := ?_
    nodup := hflatten ▸ hinv.nodup
    size := fun g hg => ?_
    pc := St.goto_forall ⟨cur, List.mem_append_right _ List.mem_cons_self, hhead⟩ fun j hne =>
      (hinv.pc j).close hhead hne (hothers j hne)
    unique := fun j k hj hk => absurd hj (by simp [hnone j])
    count := fun _ => ⟨hinv.reset i hpc, hn⟩
    reset := fun j hj => absurd ((congrArg Pc.releases hj).symm.trans (hnone j)) (by decide)
    begun := hinv.begun_goto (hinv.begun i (hpc.trans_ne Pc.noConfusion))
    returned := hinv.returned_goto fun _ => hpc.trans_ne Pc.noConfusion
    together := fun g hg j hj begun hr k hk => ?_ }
  · simp only [hinv.generation, wrappingAdd, List.length_append, List.length_singleton]
    exact Nat.mod_add_mod _ _ _
  · rcases List.mem_append.mp hg with hg | hg
    · exact hinv.size g hg
    · exact List.mem_singleton.mp hg ▸ hsize
  · rcases List.mem_append.mp hg with hg | hg
    · exact hinv.together g hg j hj begun hr k hk
    · obtain rfl := List.mem_singleton.mp hg
      exact absurd hj (hinv.not_mem_cur_of_returned hr)

theorem Inv.begin (hpc : s.pc i = .idle) :
    Inv n closed cur (s.goto i (.add s.generation)) { h with begun := i :: h.begun } := by
  have hbegun : Inv n closed cur s { h with begun := i :: h.begun } :=
    { hinv with begun := fun j hj => List.mem_cons_of_mem i (hinv.begun j hj) }
  have hi : PcOk n closed cur i (.add s.generation) := by
    have hi := hinv.pc i
    rwa [hpc] at hi
  exact hbegun.goto List.mem_cons_self hi (hpc ▸ rfl) rfl fun _ => hpc.trans_ne Pc.noConfusion

theorem Inv.run (hn : 1 ≤ n) (husize : n < usizeMod) (hpc : s.pc i = pc)
    (hok : ArrivesInTime s (.run i)) (hst : run n i s pc = some s') :
    ∃ closed' cur', Inv n closed' cur' s' (upd (.run i) s h) := by
  have hi : PcOk n closed cur i pc := hpc ▸ hinv.pc i
  have hbegun (hne : pc ≠ .idle) : i ∈ h.begun := hinv.begun i (hpc.trans_ne hne)
  simp only [ArrivesInTime, hpc] at hok
  simp only [upd, hpc]
  cases pc with
  | idle | pending | done => cases hst
  | add observed => exact ⟨closed, i :: cur, hinv.arrive husize hpc hok.1 hok.2 hst⟩
  | reset =>
    cases hst
    exact ⟨closed, cur, hinv.reset_count hpc⟩
  | bump =>
    cases hst
    exact ⟨closed ++ [cur], [], hinv.close hn hpc⟩
  | wakeAll =>
    cases hst
    have hdone : PcOk n closed cur i (.done true) := hi
    have hinv' := hinv.goto_done (hbegun Pc.noConfusion) hdone (hpc ▸ rfl) fun _ =>
      hpc.trans_ne Pc.noConfusion
    exact ⟨closed, cur, { hinv' with }⟩
  | check observed =>
    refine ⟨closed, cur, ?_⟩
    simp only [Barrier.run] at hst
    split at hst
    · next hne =>
      cases hst
      have hdone : PcOk n closed cur i (.done false) := hinv.released hi hne
      rw [if_pos (show (Pc.check observed).returns s.generation from decide_eq_true hne)]
      exact hinv.goto_done (hbegun Pc.noConfusion) hdone (hpc ▸ rfl) fun _ =>
        hpc.trans_ne Pc.noConfusion
    · next heq =>
      cases hst
      rw [if_neg (show ¬ (Pc.check observed).returns s.generation by simpa [Pc.returns] using heq)]
      exact hinv.goto (hbegun Pc.noConfusion) hi (hpc ▸ rfl) rfl fun _ =>
        hpc.trans_ne Pc.noConfusion
  | register observed =>
    cases hst
    have hinv' := hinv.goto (hbegun Pc.noConfusion)
      (show PcOk n closed cur i (.recheck observed (s.wait.register i).1.number) from hi)
      (hpc ▸ rfl) rfl fun _ => hpc.trans_ne Pc.noConfusion
    exact ⟨closed, cur, { hinv' with }⟩
  | recheck observed token =>
    refine ⟨closed, cur, ?_⟩
    simp only [Barrier.run] at hst
    split at hst
    · next hne =>
      cases hst
      have hcancel : PcOk n closed cur i (.cancel token) := hinv.released hi hne
      exact hinv.goto (hbegun Pc.noConfusion) hcancel (hpc ▸ rfl) rfl fun _ =>
        hpc.trans_ne Pc.noConfusion
    · cases hst
      exact hinv.goto (hbegun Pc.noConfusion) hi (hpc ▸ rfl) rfl fun _ =>
        hpc.trans_ne Pc.noConfusion
  | cancel token =>
    cases hst
    have hdone : PcOk n closed cur i (.done false) := hi
    have hinv' := hinv.goto_done (hbegun Pc.noConfusion) hdone (hpc ▸ rfl) fun _ =>
      hpc.trans_ne Pc.noConfusion
    exact ⟨closed, cur, { hinv' with }⟩

/-- Every step of a run whose calls arrive in time keeps the groups. -/
theorem Inv.step (hn : 1 ≤ n) (husize : n < usizeMod) {a : Act ι} (hok : ArrivesInTime s a)
    (hst : step n a s = some s') : ∃ closed' cur', Inv n closed' cur' s' (upd a s h) := by
  cases a with
  | wait i =>
    simp only [Barrier.step] at hst
    split at hst
    · next hpc =>
      cases hst
      exact ⟨closed, cur, hinv.begin hpc⟩
    · cases hst
  | poll i =>
    simp only [Barrier.step] at hst
    split at hst
    · next observed hpc =>
      cases hst
      have hi : PcOk n closed cur i (.pending observed) := hpc ▸ hinv.pc i
      exact ⟨closed, cur, hinv.goto (hinv.begun i (hpc.trans_ne Pc.noConfusion)) hi (hpc ▸ rfl) rfl
        fun _ => hpc.trans_ne Pc.noConfusion⟩
    · cases hst
  | run i => exact hinv.run hn husize rfl hok hst

end

/-- In a run whose calls arrive in time, the completed calls can be grouped: disjoint groups of
`n`, one leader in each, and nobody returns before all calls of its group have begun. -/
theorem calls_grouped (n : Nat) (hn : 1 ≤ n) (husize : n < usizeMod) (tr : List (Act ι))
    (s : St ι) (h : Hist ι) (hrun : BarrierRun n ArrivesInTime tr (s, h)) :
    ∃ groups, IsGrouping n s h groups := by
  have hparticipants : participants n = n := if_neg (Nat.one_le_iff_ne_zero.mp hn)
  obtain ⟨closed, cur, hinv⟩ := hrun.hist_invariant
    (I := fun s h => ∃ closed cur, Inv n closed cur s h)
    (by
      rintro s rfl
      exact ⟨[], [], inv_new hn⟩)
    (by
      rintro s h a s' ⟨closed, cur, hinv⟩ hok hst
      rw [hparticipants] at hst
      exact hinv.step hn husize hok hst)
  exact ⟨closed, hinv.isGrouping hn⟩

end

/-! Three tasks at a barrier for two. -/

def waits (i : Fin 3) : List (Act (Fin 3)) := .wait i :: .replicate 4 (.run i)

/-- A task waits at the barrier, another comes and releases it, and a third begins to wait. -/
def oneRound : List (Act (Fin 3)) :=
  [waits 0, [.wait 1], .replicate 4 (.run 1), [.poll 0, .run 0], waits 2].flatten

theorem calls_grouped_oneRound :
    ∃ tr, ∃ s : St (Fin 3), ∃ h, BarrierRun 2 ArrivesInTime tr (s, h) ∧
      s.pc 0 = .done false ∧ s.pc 1 = .done true ∧ s.pc 2 = .pending 1 ∧
      ∃ groups, IsGrouping 2 s h groups := by
  obtain ⟨⟨s, h⟩, hrun, heq⟩ : ∃ p, BarrierRun 2 ArrivesInTime oneRound.reverse p ∧
      p.1.pc 0 = .done false ∧ p.1.pc 1 = .done true ∧ p.1.pc 2 = .pending 1 :=
    Run.exists_of_guarded oneRound (St.new, ⟨[], []⟩) ⟨rfl, rfl⟩ (by decide +kernel)
  exact ⟨_, s, h, hrun, heq.1, heq.2.1, heq.2.2,
    calls_grouped 2 (by decide) (by decide) _ s h hrun⟩

/-- The third task counts itself after the second has filled the group and before it resets the
counter. -/
def lateArrival : List (Act (Fin 3)) :=
  [waits 0, [.wait 1, .run 1], [.wait 2, .run 2], .replicate 3 (.run 1), [.run 2],
    [.poll 0, .run 0]].flatten

/-- Three calls complete at a barrier for two, one of them as the leader. -/
theorem latecomer_is_released :
    ∃ tr s h, BarrierRun 2 Free tr (s, h) ∧ (∀ i : Fin 3, s.pc i = .done (i == 1)) ∧
      ¬ ∃ groups, IsGrouping 2 s h groups := by
  obtain ⟨⟨s, h⟩, hrun, hdone⟩ : ∃ p, BarrierRun 2 Free lateArrival.reverse p ∧
      ∀ i, p.1.pc i = .done (i == 1) :=
    Run.exists_of_exec lateArrival (St.new, ⟨[], []⟩) ⟨rfl, rfl⟩ (by decide +kernel)
  refine ⟨_, s, h, hrun, hdone, ?_⟩
  rintro ⟨groups, hgroups⟩
  -- the leader of every group is the second task, so all three are in its group
  have hled (g : List (Fin 3)) (hg : g ∈ groups) : 1 ∈ g := by
    obtain ⟨l, hl, hleader⟩ := hgroups.leader g hg
    have hl' := (hleader l hl _ (hdone l)).mpr rfl
    rwa [beq_iff_eq.mp hl'] at hl
  obtain ⟨g, hg, -⟩ := hgroups.covers 1 _ (hdone 1)
  have hsub : [0, 1, 2] ⊆ g := fun i _ => by
    obtain ⟨g', hg', hi⟩ := hgroups.covers i _ (hdone i)
    rwa [eq_of_mem_group hgroups.disjoint hg hg' (hled g hg) (hled g' hg')]
  have hlength := (List.subperm_of_subset (by decide) hsub).length_le
  rw [hgroups.size g hg] at hlength
  exact absurd hlength (by decide)

end Dtact.Barrier
