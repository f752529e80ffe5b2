import HelinKern.Theorems.RunQueue

/-! Dead processes and the scheduler: a process that is killed while it has the priority it was created
    with leaves both run queues and the task list for good, and is never switched to. -/

namespace HelinKern
namespace Kernel
open RingBuffer Lts List Option

variable {p : Nat} {k k' : Kernel} {c : Call}

structure DeadInv (k : Kernel) (q : List Nat) : Prop where
  holds : k.priority1.Holds q
  nodup_queue : q.Nodup
  zero : k.priority0 = .new 1000
  queue : ∀ p ∈ q, p < k.freePid ∧ (k.proc p).died = false
  task : ∀ p ∈ k.taskList, p < k.freePid ∧ (k.proc p).died = false
  nodup : k.taskList.Nodup
  state : ∀ p < k.freePid, (k.proc p).died = false → (k.proc p).state = .running ∨ (k.proc p).state = .idle
  type : ∀ p < k.freePid, (k.proc p).type = .process
  signal : ∀ p < k.freePid, ∀ num ∈ (k.proc p).signalQueue, num = 20
  running : ∀ p, k.runningTask = some p → p < k.freePid
  idle_lt : idle < k.freePid

namespace DeadInv
variable {k k' : Kernel} {q q' : List Nat}

theorem of_same (inv : DeadInv k q) (hholds : k'.priority1.Holds q') (hnodup : q'.Nodup) (hsub : ∀ p ∈ q', p ∈ q)
    (hzero : k'.priority0 = k.priority0) (hpid : k'.freePid = k.freePid) (hlist : k'.taskList = k.taskList)
    (hrun : ∀ p, k'.runningTask = some p → p < k.freePid)
    (hsame : ∀ p, (k'.proc p).state = (k.proc p).state ∧ (k'.proc p).died = (k.proc p).died ∧
      (k'.proc p).type = (k.proc p).type)
    (hsig : ∀ p, ∀ num ∈ (k'.proc p).signalQueue, num ∈ (k.proc p).signalQueue) : DeadInv k' q' := by
  refine ⟨hholds, hnodup, hzero.trans inv.zero, ?_, ?_, hlist ▸ inv.nodup, ?_, ?_, ?_, hpid ▸ hrun, hpid ▸ inv.idle_lt⟩
  · intro p hp
    rw [hpid, (hsame p).2.1]
    exact inv.queue p (hsub p hp)
  · intro p hp
    rw [hpid, (hsame p).2.1]
    exact inv.task p (hlist ▸ hp)
  · intro p hlt hlive
    rw [hpid] at hlt
    rw [(hsame p).2.1] at hlive
    rw [(hsame p).1]
    exact inv.state p hlt hlive
  · intro p hlt
    rw [hpid] at hlt
    rw [(hsame p).2.2]
    exact inv.type p hlt
  · intro p hlt num hnum
    rw [hpid] at hlt
    exact inv.signal p hlt num (hsig p num hnum)

theorem calm (inv : DeadInv k q) (hlt : p < k.freePid) : fatalHead (k.proc p) = false := by
  unfold fatalHead
  cases hs : (k.proc p).signalQueue with
  | nil => rfl
  | cons num rest =>
    have : num = 20 := inv.signal p hlt num (hs ▸ mem_cons_self)
    simp [this]

theorem written {ring : RingBuffer Nat} {x : Nat} (hring : ring.Holds q) (hnodup : q.Nodup) (hx : x ∉ q) :
    ∃ q', (ring.write x).Holds q' ∧ q'.Nodup ∧ ∀ p ∈ q', p ∈ q ∨ p = x := by
  by_cases hroom : q.length + 1 < ring.size
  · refine ⟨q ++ [x], hring.write_of_room hroom, ?_, fun p hp => ?_⟩
    · refine nodup_append.mpr ⟨hnodup, pairwise_singleton _ _, ?_⟩
      rintro p hp p' hp' rfl
      rw [mem_singleton.mp hp'] at hp
      exact hx hp
    · exact (mem_append.mp hp).imp_right mem_singleton.mp
  · refine ⟨q, ?_, hnodup, fun p hp => .inl hp⟩
    rw [hring.write_of_full (by have := hring.room; omega)]
    exact hring

variable (inv : DeadInv k q)
include inv

theorem create {isUser : Bool} (hc : Created k isUser k') : ∃ q', DeadInv k' q' := by
  have hfresh : k.freePid ∉ q := fun h => Nat.lt_irrefl _ (inv.queue _ h).1
  have hlive : ∀ {l : List Nat}, (∀ p ∈ l, p < k.freePid ∧ (k.proc p).died = false) →
      ∀ p, p ∈ l ∨ p = k.freePid → p < k'.freePid ∧ (k'.proc p).died = false := by
    intro l hl
    refine hc.forall_mem (P := fun p x => p < k'.freePid ∧ x.died = false) (fun _ _ _ h => h)
      ⟨hc.freePid ▸ Nat.lt_succ_self _, rfl⟩ fun p hp => ?_
    exact ⟨(hl p hp).1, hc.freePid ▸ Nat.lt_succ_of_lt (hl p hp).1, (hl p hp).2⟩
  obtain ⟨q', hholds, hnodup, hsub⟩ := written inv.holds inv.nodup_queue hfresh
  refine ⟨q', hc.priority1 ▸ hholds, hnodup, hc.priority0.trans inv.zero, fun p hp => hlive inv.queue p (hsub p hp), ?_,
    hc.nodup inv.nodup fun p hp => (inv.task p hp).1, ?_, ?_, ?_, hc.running_lt inv.running,
    hc.freePid ▸ Nat.lt_succ_of_lt inv.idle_lt⟩
  · intro p hp
    rw [hc.taskList] at hp
    exact hlive inv.task p ((mem_append.mp hp).imp id mem_singleton.mp)
  · exact hc.forall_lt (P := fun _ x => x.died = false → x.state = .running ∨ x.state = .idle) (fun _ _ _ h => h)
      (fun _ => .inl rfl) inv.state
  · exact hc.forall_lt (P := fun _ x => x.type = .process) (fun _ _ _ h => h) rfl inv.type
  · exact hc.forall_lt (P := fun _ x => ∀ num ∈ x.signalQueue, num = 20) (fun _ _ _ h => h) (fun _ h => by cases h) inv.signal

theorem kill {prc : Nat} {code : Int} (hprio : (k.proc prc).priority = 1)
    (hk : Killed k prc code k') : DeadInv k' (q.erase prc) := by
  have hqueue : k'.priority0 = k.priority0 ∧ k'.priority1 = k.priority1.remove prc := by
    rcases hk.queue with ⟨h0, -⟩ | ⟨-, h⟩
    · rw [hprio] at h0
      cases h0
    · exact h
  have hlive : ∀ p, (p < k.freePid ∧ (k.proc p).died = false) ∧ p ≠ prc → p < k'.freePid ∧ (k'.proc p).died = false := by
    rintro p ⟨⟨hlt, hl⟩, hp⟩
    rw [hk.freePid, (hk.core p hp).died]
    exact ⟨hlt, hl⟩
  refine ⟨?_, inv.nodup_queue.erase _, hqueue.1.trans inv.zero, ?_, ?_, hk.nodup inv.nodup, ?_, ?_, ?_,
    hk.running_lt inv.idle_lt inv.running, hk.freePid ▸ inv.idle_lt⟩
  · rw [hqueue.2]
    exact inv.holds.remove
  · intro p hp
    obtain ⟨hne, hp⟩ := inv.nodup_queue.mem_erase_iff.mp hp
    exact hlive p ⟨inv.queue p hp, hne⟩
  · intro p hp
    obtain ⟨hne, hp⟩ := (hk.mem_taskList inv.nodup).mp hp
    exact hlive p ⟨inv.task p hp, hne⟩
  · intro p hlt hl
    rw [hk.freePid] at hlt
    have hp := hk.ne_of_live hl
    rw [(hk.core p hp).died] at hl
    rw [(hk.core p hp).state]
    exact inv.state p hlt hl
  · exact fun p hlt => (hk.type p).trans (inv.type p (hk.freePid ▸ hlt))
  · intro p hlt num hnum
    rw [hk.freePid] at hlt
    rw [hk.signalQueue] at hnum
    rcases mem_append.mp hnum with hnum | hnum
    · split at hnum
      · cases hnum
      · exact inv.signal p hlt num hnum
    · split at hnum
      · exact mem_singleton.mp hnum
      · cases hnum

theorem pickTask {picked : Option Nat} (h : k.pickTask = .ok (picked, k')) :
    ∃ q', Requeued k q' k' ∧ q'.Nodup ∧ (∀ p ∈ q', p ∈ q) ∧ ∀ x, picked = some x → x ∈ q ∧ x ∉ q' := by
  have hsmall : ∀ {rest : List Nat} {x : Nat}, (∀ y, rest.count y + (if some x = some y then 1 else 0) ≤ q.count y) →
      x ∈ q ∧ x ∉ rest := by
    intro rest x hle
    have hx := hle x
    rw [if_pos rfl] at hx
    have hone := nodup_iff_count.mp inv.nodup_queue x
    refine ⟨count_pos_iff.mp (by omega), fun hmem => ?_⟩
    have := count_pos_iff.mpr hmem
    omega
  have hkept : ∀ {q' : List Nat}, (∀ y, q'.count y ≤ q.count y) → q'.Nodup ∧ ∀ p ∈ q', p ∈ q := by
    intro q' hle
    refine ⟨nodup_iff_count.mpr fun y => Nat.le_trans (hle y) (nodup_iff_count.mp inv.nodup_queue y), ?_⟩
    intro p hp
    exact count_pos_iff.mp (Nat.lt_of_lt_of_le (count_pos_iff.mpr hp) (hle p))
  rcases pickTask_ok inv.holds h with ⟨rfl, rfl, rfl⟩ | ⟨x, rest, rfl, rfl, hre, -⟩ | ⟨x, rest, q', rfl, hre, hp, -⟩
  · exact ⟨[], ⟨_, inv.holds, rfl, rfl⟩, nodup_nil, fun p hp => hp, fun x hx => by simp at hx⟩
  · have hcount : ∀ y, rest.count y + (if some x = some y then 1 else 0) = (x :: rest).count y := by
      intro y
      rw [count_cons]
      simp
    obtain ⟨hnodup, hsub⟩ := hkept fun y => count_le_count_cons
    refine ⟨rest, hre, hnodup, hsub, ?_⟩
    intro y hy
    cases hy
    exact hsmall fun y => Nat.le_of_eq (hcount y)
  · have hle : ∀ y, q'.count y + (if picked = some y then 1 else 0) ≤ (x :: rest).count y :=
      fun y => Nat.le_trans (hp.le y) (count_le_count_cons ..)
    obtain ⟨hnodup, hsub⟩ := hkept fun y => Nat.le_trans (Nat.le_add_right ..) (hle y)
    refine ⟨q', hre, hnodup, hsub, ?_⟩
    intro y hy
    cases hy
    exact hsmall hle

theorem switched (hlt : p < k.freePid) : DeadInv { k.takeSignal p with runningTask := some p } q := by
  obtain ⟨hlist, hzero, hqueue, hpid, -⟩ := takeSignal_same k p
  refine inv.of_same ?_ inv.nodup_queue (fun _ hp => hp) hzero hpid hlist ?_ (fun x => ?_) (takeSignal_signal k p)
  · exact (congrArg (·.Holds q) hqueue).mpr inv.holds
  · intro p' hp'
    cases hp'
    exact hlt
  · have := takeSignal_life k p x
    exact ⟨this.state, this.died, this.type⟩

theorem modified {f : Process → Process}
    (hf : ∀ x, (f x).state = x.state ∧ (f x).died = x.died ∧ (f x).type = x.type ∧ (f x).signalQueue = x.signalQueue) :
    DeadInv (k.modify p f) q := by
  have hproc := fun x => modify_proc k p x f
  refine inv.of_same inv.holds inv.nodup_queue (fun _ hp => hp) rfl rfl rfl inv.running (fun x => ?_) fun x num hnum => ?_
  · rw [hproc]
    split
    · exact ⟨(hf _).1, (hf _).2.1, (hf _).2.2.1⟩
    · exact ⟨rfl, rfl, rfl⟩
  · rw [hproc] at hnum
    split at hnum
    · rwa [(hf _).2.2.2] at hnum
    · exact hnum

theorem schedule {r : Scheduled} (h : k.threadSchedule = .ok (k', r)) :
    (∃ q', DeadInv k' q') ∧ ∀ p, r = .switched p → (k.proc p).died = false ∧ (k'.proc p).died = false := by
  rcases threadSchedule_ok h with ⟨p, hrun, -, rfl, rfl⟩ | ⟨p, hrun, hlive, h⟩ | ⟨hpick, rfl⟩ | ⟨p, k₁, hpick, h⟩
  · exact ⟨⟨q, inv.modified fun _ => ⟨rfl, rfl, rfl, rfl⟩⟩, nofun⟩
  · have hlt := inv.running p hrun
    rw [processSignals_of_not_fatal _ (inv.calm hlt)] at h
    cases h
    refine ⟨⟨q, inv.switched hlt⟩, fun p' hp' => ?_⟩
    cases hp'
    exact ⟨hlive, (takeSignal_life k p p).died.trans hlive⟩
  · obtain ⟨q', ⟨ring, hring, -, rfl⟩, hnodup, hsub, -⟩ := inv.pickTask hpick
    exact ⟨⟨q', inv.of_same hring hnodup hsub rfl rfl rfl inv.running (fun _ => ⟨rfl, rfl, rfl⟩) fun _ _ h => h⟩, nofun⟩
  · obtain ⟨q', ⟨ring, hring, -, rfl⟩, hnodup, hsub, hpicked⟩ := inv.pickTask hpick
    obtain ⟨hmem, hgone⟩ := hpicked p rfl
    obtain ⟨hlt, hlive⟩ := inv.queue p hmem
    have hkeep : (k.proc p).state.unschedulable = false := by
      rcases inv.state p hlt hlive with h | h <;> rw [h] <;> rfl
    unfold switchToPopped at h
    simp only [hkeep] at h
    have horphan : orphanThread { k with priority1 := ring } p = false := by simp [orphanThread, inv.type p hlt]
    obtain ⟨rfl, rfl⟩ := switchTask_of_not_fatal (k := { k with priority1 := ring }) (inv.calm hlt) horphan h
    obtain ⟨q'', hholds, hnodup', hsub'⟩ := written hring hnodup hgone
    have hpushed : DeadInv ({ k with priority1 := ring }.pushed p) q'' := by
      refine inv.of_same hholds hnodup' (fun x hx => ?_) rfl rfl rfl inv.running (fun x => ?_) fun x num hnum => ?_
      · rcases hsub' x hx with hx | rfl
        · exact hsub x hx
        · exact hmem
      · have := pushed_life { k with priority1 := ring } p x
        exact ⟨this.state, this.died, this.type⟩
      · rw [pushed_proc] at hnum
        split at hnum <;> exact hnum
    refine ⟨⟨q'', hpushed.switched hlt⟩, fun p' hp' => ?_⟩
    cases hp'
    have := SameLife.trans (pushed_life { k with priority1 := ring } p p) (takeSignal_life _ p p)
    exact ⟨hlive, this.died.trans hlive⟩

theorem nice {prio : Int} : DeadInv (k.sysNice prio) q := inv.modified fun _ => ⟨rfl, rfl, rfl, rfl⟩

theorem reap {parent child : Nat} : DeadInv (k.reap parent child).2 q :=
  have h : DeadInv (k.modify parent fun p => { p with childQueue := p.childQueue.erase child }) q :=
    inv.modified fun _ => ⟨rfl, rfl, rfl, rfl⟩
  { h with }

end DeadInv

theorem Booted.deadInv (h : Booted k) : DeadInv k [idle] := by
  have inv := h.queueInv
  refine ⟨inv.holds, pairwise_singleton _ _, h.priority0, ?_, ?_, inv.nodup, ?_, ?_, ?_, inv.running, inv.idle_lt⟩
  · intro p hp
    obtain ⟨hlt, -⟩ := inv.live p hp
    rw [h.proc_eq hlt]
    exact ⟨hlt, rfl⟩
  · exact fun p hp => (inv.task p hp).2
  · intro p hlt _
    rw [h.proc_eq hlt]
    exact .inr rfl
  · exact fun p hlt => (inv.plain p hlt).1
  · intro p hlt num hnum
    rw [h.proc_eq hlt] at hnum
    cases hnum

def Call.tasks : Call → Bool
  | .create _ | .nice _ | .kill _ _ _ | .waitpid _ | .schedule _ => true
  | _ => false

structure TaskStep (k : Kernel) (c : Call) (k' : Kernel) : Prop where
  step : Step k c k'
  call : c.tasks

/-- A process is killed only while it has the priority it was created with. -/
structure PlainStep (k : Kernel) (c : Call) (k' : Kernel) : Prop extends TaskStep k c k' where
  priority : ∀ prc code reschedule, c = .kill prc code reschedule → (k.proc prc).priority = 1

theorem DeadInv.step {q : List Nat} (inv : DeadInv k q) (h : PlainStep k c k') :
    ∃ q', DeadInv k' q' := by
  cases h.step with
  | create hc => exact inv.create (threadCreate_ok hc).2
  | schedule hs => exact (inv.schedule hs).1
  | kill hprc hk => exact ⟨_, inv.kill (h.priority _ _ _ rfl) (threadKillThread_ok hk)⟩
  | nice => exact ⟨q, inv.nice⟩
  | waitpid _ hpoll =>
    obtain ⟨-, -, hreap⟩ := waitpidPoll_some hpoll
    have hk : (k.reap k.caller _).2 = k' := congrArg Prod.snd hreap
    exact ⟨q, hk ▸ inv.reap⟩
  | waitpidAny hany =>
    obtain ⟨-, -, hreap⟩ := waitpidAny_some hany
    have hk : (k.reap k.caller _).2 = k' := congrArg Prod.snd hreap
    exact ⟨q, hk ▸ inv.reap⟩
  | sysKill | sigexit | clone => cases h.call

theorem run_deadInv {k₀ : Kernel} {calls : List Call} (hinit : threadInit = .ok k₀) (hrun : Run PlainStep k₀ calls k) :
    ∃ q, DeadInv k q := by
  refine hrun.invariant (fun k => ∃ q, DeadInv k q) ⟨_, (threadInit_ok hinit).deadInv⟩ ?_
  rintro k c k' ⟨q, inv⟩ hs
  exact inv.step hs

/-- A dead process is in no run queue and not in the task list, and the scheduler does not switch to it,
    in every state that is reached while only processes of priority 1 are killed. -/
theorem dead_not_scheduled {k₀ k : Kernel} {calls : List Call} (hinit : threadInit = .ok k₀)
    (hrun : Run PlainStep k₀ calls k) :
    (∀ p, (k.proc p).died = true → p ∉ k.priority0.toList ∧ p ∉ k.priority1.toList ∧ p ∉ k.taskList) ∧
      ∀ k' p, k.threadSchedule = .ok (k', .switched p) → (k.proc p).died = false ∧ (k'.proc p).died = false := by
  obtain ⟨q, inv⟩ := run_deadInv hinit hrun
  refine ⟨fun p hdead => ⟨?_, ?_, ?_⟩, fun k' p h => (inv.schedule h).2 p rfl⟩
  · rw [inv.zero]
    exact not_mem_nil
  · rw [inv.holds.toList_eq]
    intro hp
    rw [(inv.queue p hp).2] at hdead
    cases hdead
  · intro hp
    rw [(inv.task p hp).2] at hdead
    cases hdead

def plainCheck (k : Kernel) (c : Call) (_ : Kernel) : Bool :=
  match c with
  | .kill prc _ _ => (k.proc prc).priority = 1
  | c => c.tasks

theorem plainStep_of_check (h : Step k c k' ∧ plainCheck k c k') : PlainStep k c k' := by
  obtain ⟨hstep, hcheck⟩ := h
  cases c with
  | kill prc code reschedule =>
    refine ⟨⟨hstep, rfl⟩, fun prc' _ _ hc => ?_⟩
    cases hc
    exact of_decide_eq_true hcheck
  | create | schedule | sysKill | nice | sigexit | clone | waitpid =>
    exact ⟨⟨hstep, hcheck⟩, fun _ _ _ hc => by cases hc⟩

/-- Process 2 exits, and init is switched to. -/
theorem dead_not_scheduled_exit :
    ∃ k₀ k k', threadInit = .ok k₀ ∧ Run PlainStep k₀ (twoTasks ++ [.kill 2 7 true]) k ∧ (k.proc 2).died = true ∧
      2 ∉ k.priority1.toList ∧ k.threadSchedule = .ok (k', .switched 1) ∧ (k'.proc 1).died = false := by
  have heval : ((threadInit.toOption.bind (Run.execAll exec plainCheck · (twoTasks ++ [.kill 2 7 true]))).any fun k =>
      (k.proc 2).died ∧ k.threadSchedule.toOption.map Prod.snd = some (.switched 1)) = true := by decide +kernel
  obtain ⟨k₀, k, hinit, hrun, hend⟩ := Run.of_any step_of_exec plainStep_of_check heval
  obtain ⟨hdied, hsched⟩ := of_decide_eq_true hend
  obtain ⟨⟨k', r⟩, hok, rfl⟩ := map_eq_some_iff.mp hsched
  obtain ⟨hgone, hlive⟩ := dead_not_scheduled (toOption_eq_some hinit) hrun
  exact ⟨k₀, k, k', toOption_eq_some hinit, hrun, hdied, (hgone 2 hdied).2.1, toOption_eq_some hok,
    (hlive k' 1 (toOption_eq_some hok)).2⟩

/-- With priority 0 a process is removed from the other queue, and stays in the one it is in. -/
theorem dead_stays_queued :
    ∃ k₀ k, threadInit = .ok k₀ ∧ Run TaskStep k₀ (twoTasks ++ [.nice 0, .kill 2 7 true]) k ∧
      (k.proc 2).died = true ∧ 2 ∈ k.priority1.toList := by
  have heval : ((threadInit.toOption.bind (Run.execAll exec (fun _ c _ => c.tasks) · (twoTasks ++ [.nice 0, .kill 2 7 true]))).any
      fun k => (k.proc 2).died ∧ 2 ∈ k.priority1.toList) = true := by decide +kernel
  obtain ⟨k₀, k, hinit, hrun, hend⟩ := Run.of_any (R := TaskStep) step_of_exec (fun h => ⟨h.1, h.2⟩) heval
  exact ⟨k₀, k, toOption_eq_some hinit, hrun, of_decide_eq_true hend⟩

end Kernel
end HelinKern
