import Dtact.Scheduler.Conservation

/-!
# The self-column of the mailbox matrix

A worker never polls `mailboxes[p][p]`. The senders step aside when the target is the producer, but
only if there is a second worker.
-/

namespace Dtact.Scheduler

open Circular Bags Transition

/-! ## The polling order -/

section PollingOrder

variable {n : Nat} [NeZero n]

theorem mem_around (core : Nat) (i : Fin n) :
    i ∈ (List.range n).map fun offset => Fin.ofNat n (core + offset) := by
  have hpos : 0 < n := NeZero.pos n
  have hi := i.isLt
  refine List.mem_map.mpr ⟨(i + (n - core % n)) % n, List.mem_range.mpr (Nat.mod_lt _ hpos), ?_⟩
  apply Fin.ext
  have hc : core % n < n := Nat.mod_lt _ hpos
  calc (core + (i + (n - core % n)) % n) % n
      = (core % n + (i + (n - core % n))) % n := by rw [Nat.add_mod_mod, Nat.mod_add_mod]
    _ = (i + n) % n := by congr 1; omega
    _ = i := by rw [Nat.add_mod_right, Nat.mod_eq_of_lt hi]

theorem nodup_around (core : Nat) :
    ((List.range n).map fun offset => Fin.ofNat n (core + offset)).Nodup := by
  refine List.Nodup.map_on (fun a ha b hb hab => ?_) List.nodup_range
  have hv : (core + a) % n = (core + b) % n := congrArg Fin.val hab
  have hm : a ≡ b [MOD n] := Nat.ModEq.add_left_cancel' core hv
  rwa [Nat.ModEq, Nat.mod_eq_of_lt (List.mem_range.mp ha),
    Nat.mod_eq_of_lt (List.mem_range.mp hb)] at hm

/-- The polling order has every core except the own number, once. -/
theorem pollingOrder_perm (cpu : CpuLevel) :
    (Worker.new cpu : Worker n).pollingOrder.Perm
      ((List.finRange n).filter fun i => i.val ≠ cpu.coreId) := by
  have hnear : (ccxPeers cpu : List (Fin n)).Nodup := (List.nodup_finRange n).filter _
  have hfar : (farPeers cpu : List (Fin n)).Nodup := (nodup_around cpu.coreId).filter _
  refine (List.perm_ext_iff_of_nodup ?_ ((List.nodup_finRange n).filter _)).mpr fun i => ?_
  · refine List.Nodup.append hnear hfar fun i hi hi' => ?_
    simp only [ccxPeers, farPeers, List.mem_filter, decide_eq_true_eq] at hi hi'
    exact hi'.2.2 hi.2.2
  · simp only [Worker.new, ccxPeers, farPeers, List.mem_append, List.mem_filter,
      List.mem_finRange, mem_around, decide_eq_true_eq, true_and]
    constructor
    · rintro (h | h) <;> exact h.1
    · intro h
      by_cases hc : asU16 (i.val / 8) = cpu.ccxId
      · exact Or.inl ⟨h, hc⟩
      · exact Or.inr ⟨h, hc⟩

end PollingOrder

/-! ## The invariant -/

namespace DtaScheduler

variable {n : Nat} [NeZero n] {s s' : DtaScheduler n}

/-- The self-column is empty, and the polling orders are those of `Worker::new`. -/
structure SelfClean (s : DtaScheduler n) : Prop where
  empty : ∀ w, (s.mailboxes w w).contents = []
  order : ∀ w, (s.workers w).pollingOrder =
    (Worker.new { coreId := asU16 w, ccxId := asU16 (w / 8) } : Worker n).pollingOrder

theorem SelfClean.new (topology : TopologyMode) : (new n topology).SelfClean where
  empty _ := Buffer.contents_empty _ _
  order _ := rfl

theorem SelfClean.effect {m : Place n → List Nat} {P : Place n → Prop} (h : s.SelfClean)
    (he : Effect s s' m P) (hP : ∀ w, ¬ P (.mailbox w w)) : s'.SelfClean where
  empty w := by rw [he.mail w w (hP w), h.empty]
  order w := by rw [he.order, h.order]

theorem SelfClean.received {core : Fin n} {src : Inlet n} {c : TaskChunk} {m : Mailbox}
    {p : Place n} (h : s.SelfClean) (hr : Received core src s c m p s') : s'.SelfClean := by
  refine (h.effect (s.setInlet_effect core src m) fun w hw => ?_).effect hr.moved fun w hw => ?_
  · -- an inlet with a chunk in it is not the self-column
    cases src with
    | peer i =>
      obtain ⟨rfl, rfl⟩ : w = i ∧ w = core := by simpa [Place.ofInlet] using hw
      have hfront : (s.mailboxes w w).contents = _ := hr.front
      rw [h.empty] at hfront
      cases hfront
    | external => cases hw
  · exact Routed.ne_self hr.routed w hw.symm

theorem SelfClean.polls {core : Fin n} {srcs : List (Inlet n)} (h : s.SelfClean)
    (hp : Polls core srcs s s') : s'.SelfClean := by
  induction hp with
  | done hq => exact h.effect hq fun _ => not_false
  | move hr _ ih => exact ih (h.received hr)
  | next _ _ ih => exact ih h

theorem SelfClean.drains {core : Fin n} (h : s.SelfClean) (hd : Drains core s s') :
    s'.SelfClean := by
  induction hd with
  | done => exact h
  | @move s _ _ c warehouse hd _ ih =>
    have hs := h.effect (s.setWarehouse_effect warehouse) fun _ => not_false
    exact ih (hs.effect hd.moved fun _ => by simp)

end DtaScheduler

/-! ## Runs -/

namespace System

open DtaScheduler

variable {n : Nat} [NeZero n]

/-- The operation is not a deflection by a worker without a peer and without
room in its queue. -/
def PeerOrRoom (σ : System n) : Op n → Prop
  | .enqueueDeflect current _ _ _ _ => ¬ σ.sched.NoPeer current
  | _ => True

theorem step_selfClean {σ σ' : System n} {op : Op n} (h : σ.sched.SelfClean)
    (hok : PeerOrRoom σ op) (hst : step op σ = some σ') : σ'.sched.SelfClean := by
  obtain ⟨out, s', hran, rfl⟩ := step_ran hst
  cases hran with
  | refused _ => exact h
  | pinned hd => exact h.effect hd fun w hw => pinnedPlace_ne_self _ _ w hw.symm
  | deflected hd hp => exact h.effect hd fun w hw => hok (hp w hw.symm)
  | polled hp => exact h.polls hp
  | drained hd => exact h.drains hd
  | dispatched _ he => exact h.effect he fun _ => not_false
  | idle => exact h

/-- **No stranded chunk.** With at most 65536 workers, and as long as no worker
deflects a task without a peer and without room, the self-column stays empty,
each worker polls all others, and so every chunk in the matrix is polled. -/
theorem no_stranded_chunk (hn : n ≤ 65536) {tr : List (Op n)} {σ : System n}
    (h : Run Initial step PeerOrRoom tr σ) :
    (∀ p, (σ.sched.mailboxes p p).contents = []) ∧
    (∀ p, (σ.sched.workers p).pollingOrder.Perm ((List.finRange n).filter (· ≠ p))) ∧
    ∀ i j, (σ.sched.mailboxes i j).contents ≠ [] → i ∈ (σ.sched.workers j).pollingOrder := by
  have hclean : σ.sched.SelfClean := by
    refine Run.invariant (I := fun _ σ => σ.sched.SelfClean) ?_ ?_ h
    · rintro _ ⟨topology, rfl⟩
      exact .new topology
    · intro _ _ _ _ hI hok hst
      exact step_selfClean hI hok hst
  have horder (p : Fin n) :
      (σ.sched.workers p).pollingOrder.Perm ((List.finRange n).filter (· ≠ p)) := by
    rw [hclean.order p]
    refine (pollingOrder_perm _).trans (List.Perm.of_eq (List.filter_congr fun i _ => ?_))
    have hp : asU16 p = p := Nat.mod_eq_of_lt (Nat.lt_of_lt_of_le p.isLt hn)
    simp [hp, Fin.ext_iff]
  refine ⟨hclean.empty, horder, fun i j hne => ?_⟩
  have hij : i ≠ j := by
    rintro rfl
    exact hne (hclean.empty i)
  exact (horder j).mem_iff.mpr (by simp [hij])

theorem no_stranded_chunk_two : ∃ σ : System 2,
    Run Initial step PeerOrRoom deflectAndDispatch.reverse σ ∧
      ∀ p, (σ.sched.mailboxes p p).contents = [] := by
  have hsome : (exec step deflectAndDispatch ⟨DtaScheduler.new 2 .global, [], []⟩).isSome := by
    decide +kernel
  obtain ⟨σ, hσ⟩ := Option.isSome_iff_exists.mp hsome
  have hok : ∀ (σ : System 2) op, PeerOrRoom σ op := by
    intro σ op
    cases op <;> simp [PeerOrRoom, NoPeer]
  have h : Run Initial step PeerOrRoom deflectAndDispatch.reverse σ :=
    (Run.of_exec _ ⟨.global, rfl⟩ hσ).mono fun σ op _ => hok σ op
  exact ⟨σ, h, (no_stranded_chunk (by decide) h).1⟩

/-- Without a peer, a full local queue sends the worker's own task into the
self-column. -/
theorem step_strand {σ : System 1} {t : Nat} (hbusy : σ.sched.warehouse.isBusy = false)
    (hfull : (σ.sched.workers 0).localQueueLen ≥ localQueueCapacity - 1)
    (hbox : (σ.sched.mailboxes 0 0).isFull = false) :
    ∃ σ', step (.enqueueDeflect (.worker 0) 0 0 t .any) σ = some σ' ∧
      (σ'.sched.mailboxes 0 0).contents ≠ [] := by
  obtain ⟨s', hs', hd⟩ : ∃ s', σ.sched.pushMailbox (.worker 0) 0 (.single t) = .ok s' ∧
      Deposit σ.sched (.mailbox 0 0) [t] s' := by
    rcases σ.sched.pushMailbox_spec (.worker 0) 0 (.single t) with he | h
    · simp [pushMailbox, Mailbox.push, hbox, Except.map] at he
    · exact h
  have hself : avoidSelf (.worker 0) (0 : Fin 1) = 0 := Subsingleton.elim _ _
  have htarget : σ.sched.deflectTarget 0 0 .any = 0 := Subsingleton.elim _ _
  have hrun : σ.sched.enqueueDeflect (.worker 0) 0 0 t .any = .ok (true, s'.signalWorker 0) := by
    rw [enqueueDeflect, if_neg (by simp [hbusy]), htarget, if_pos rfl, pushLocal_full hfull]
    simp only [pushChunkWithHop, hself, hopLoop, hs']
  refine ⟨_, by rw [step, Op.run, hrun]; rfl, fun hnil => ?_⟩
  have htasks := congrFun hd.tasks (.mailbox 0 0)
  have hnil : (s'.mailboxes 0 0).contents = [] := hnil
  rw [tasksAt, hnil, put, Function.update_self] at htasks
  simp at htasks

/-- Both conditions of `no_stranded_chunk` are needed. A single worker with a full
queue strands its next task; and with 65537 workers the number of the last one is
cut to 0, so that it never polls the mailbox that worker 0 fills for it. -/
theorem single_worker_strands :
    (∃ tr, ∃ σ : System 1, Run Initial step Free tr σ ∧
      (σ.sched.mailboxes 0 0).contents ≠ []) ∧
    (0 : Fin 65537) ∉ ((DtaScheduler.new 65537 .p2pMesh).workers 65536).pollingOrder := by
  constructor
  · obtain ⟨tr, q, acc, hrun, hlen⟩ : ∃ tr q acc,
        Run Initial step Free tr ⟨(DtaScheduler.new 1 .p2pMesh).setQueue 0 q, acc, []⟩ ∧
          q.len = localQueueCapacity - 1 :=
      run_filled .p2pMesh 0 7 (fun _ => trivial) (Nat.le_refl _)
    have hfull : (((DtaScheduler.new 1 .p2pMesh).setQueue 0 q).workers 0).localQueueLen ≥
        localQueueCapacity - 1 := by
      rw [Worker.localQueueLen, localQueue_setQueue, hlen]
    obtain ⟨σ', hst, hne⟩ := step_strand (σ := ⟨_, acc, []⟩) (t := 7) rfl hfull rfl
    exact ⟨_, σ', hrun.next trivial hst, hne⟩
  · intro h
    have hm := (pollingOrder_perm _).mem_iff.mp h
    simp [asU16] at hm

end System

end Dtact.Scheduler
