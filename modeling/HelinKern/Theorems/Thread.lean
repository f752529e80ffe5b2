import HelinKern.Syscall
import HelinKern.Lib.Lts

/-! What `thread_killThread` and `thread_create` do to a kernel state. -/

namespace HelinKern
variable {p p' : Process} {q : Nat} {isUser : Bool}

namespace Kernel
open RingBuffer List

theorem bind_ok {α β : Type} {x : Except Fault α} {f : α → Except Fault β} {b : β} (h : x >>= f = .ok b) :
    ∃ a, x = .ok a ∧ f a = .ok b := by
  cases x with
  | error e => cases h
  | ok a => exact ⟨a, rfl, h⟩

/-! ### Changing one process -/

section Modify
variable (k : Kernel) (p q : Nat) (f : Process → Process)

@[simp] theorem modify_self : (k.modify p f).proc p = f (k.proc p) := by simp [modify]

theorem modify_of_ne (h : q ≠ p) : (k.modify p f).proc q = k.proc q := by simp [modify, h]

theorem modify_proc : (k.modify p f).proc q = if q = p then f (k.proc q) else k.proc q := by
  by_cases h : q = p
  · subst h
    simp
  · rw [modify_of_ne k p q f h, if_neg h]

@[simp] theorem modify_taskList : (k.modify p f).taskList = k.taskList := rfl
@[simp] theorem modify_runningTask : (k.modify p f).runningTask = k.runningTask := rfl
@[simp] theorem modify_sent : (k.modify p f).sent = k.sent := rfl

end Modify

variable {k k' : Kernel} {prc : Nat}

structure SameLife (p p' : Process) : Prop where
  state : p'.state = p.state
  died : p'.died = p.died
  type : p'.type = p.type
  priority : p'.priority = p.priority

/-- What only a process's own life changes: everything but its family, its signals and its quota. -/
structure SameCore (p p' : Process) : Prop extends SameLife p p' where
  substate : p'.substate = p.substate
  exitCode : p'.exitCode = p.exitCode
  started : p'.started = p.started
  aspace : p'.aspace = p.aspace
  userProcess : p'.userProcess = p.userProcess
  signalHandlers : p'.signalHandlers = p.signalHandlers

theorem SameLife.trans {p'' : Process} (h : SameLife p p') (h' : SameLife p' p'') : SameLife p p'' :=
  ⟨h'.state.trans h.state, h'.died.trans h.died, h'.type.trans h.type, h'.priority.trans h.priority⟩

theorem SameLife.modify (k : Kernel) (p q : Nat) (f : Process → Process) (h : SameLife (k.proc p) (f (k.proc p))) :
    SameLife (k.proc q) ((k.modify p f).proc q) := by
  by_cases hq : q = p
  · subst hq
    rwa [modify_self]
  · rw [modify_of_ne k p q f hq]
    exact ⟨rfl, rfl, rfl, rfl⟩

/-! ### The children of a dead process -/

def deadChildren (k : Kernel) (cs : List Nat) : List Nat :=
  cs.filter fun c => (k.proc c).died ∨ (k.proc c).state = .zombie

variable {code : Int} {cs : List Nat}

theorem reparentZombies_ok (h : k.reparentZombies cs = .ok k') : (k' = k ∧ k.deadChildren cs = []) ∨
      ∃ init rest, k.taskList = init :: rest ∧
        k' = k.modify init fun p => { p with childQueue := p.childQueue ++ k.deadChildren cs } := by
  induction cs generalizing k with
  | nil =>
    cases h
    exact Or.inl ⟨rfl, rfl⟩
  | cons c cs ih =>
    unfold reparentZombies at h
    by_cases hc : (k.proc c).died ∨ (k.proc c).state = .zombie
    · rw [if_pos hc] at h
      have hcons : k.deadChildren (c :: cs) = c :: k.deadChildren cs := by
        unfold deadChildren
        rw [filter_cons_of_pos (by simpa using hc)]
      cases ht : k.taskList with
      | nil =>
        rw [ht] at h
        cases h
      | cons init rest =>
        rw [ht] at h
        refine Or.inr ⟨init, rest, rfl, ?_⟩
        have hsame : ∀ ds, (k.modify init fun p => { p with childQueue := p.childQueue ++ [c] }).deadChildren ds =
            k.deadChildren ds := by
          intro ds
          unfold deadChildren
          congr 1
          funext d
          simp only [modify_proc]
          split <;> rfl
        rcases ih h with ⟨rfl, hnone⟩ | ⟨init', rest', ht', rfl⟩
        · rw [hsame] at hnone
          rw [hcons, hnone]
        rw [modify_taskList, ht] at ht'
        cases ht'
        rw [hsame, hcons]
        simp [modify]
    · rw [if_neg hc] at h
      have hcons : k.deadChildren (c :: cs) = k.deadChildren cs := by
        unfold deadChildren
        rw [filter_cons_of_neg (by simpa using hc)]
      rw [hcons]
      exact ih h

/-- Only processes were changed. -/
def OnlyProc (k k' : Kernel) : Prop := ∃ proc, k' = { k with proc }

theorem OnlyProc.refl (k : Kernel) : OnlyProc k k := ⟨k.proc, rfl⟩

theorem OnlyProc.modify (k : Kernel) (p : Nat) (f : Process → Process) : OnlyProc k (k.modify p f) := ⟨_, rfl⟩

theorem OnlyProc.trans {k'' : Kernel} (h : OnlyProc k k') (h' : OnlyProc k' k'') : OnlyProc k k'' := by
  obtain ⟨_, rfl⟩ := h
  obtain ⟨_, rfl⟩ := h'
  exact ⟨_, rfl⟩

theorem reparentZombies_same (h : k.reparentZombies cs = .ok k') : OnlyProc k k' := by
  rcases reparentZombies_ok h with ⟨rfl, -⟩ | ⟨init, rest, -, rfl⟩
  · exact .refl _
  · exact .modify ..

theorem reparentZombies_proc (h : k.reparentZombies cs = .ok k') (q : Nat) : k'.proc q = { k.proc q with
      childQueue := (k.proc q).childQueue ++ if k.taskList.head? = some q then k.deadChildren cs else [] } := by
  rcases reparentZombies_ok h with ⟨rfl, hnone⟩ | ⟨init, rest, ht, rfl⟩
  · simp [hnone]
  rw [modify_proc, ht]
  by_cases hq : q = init
  · simp [hq]
  · simp [hq, Ne.symm hq]

theorem orphanZombies_proc (cs : List Nat) (q : Nat) :
    (k.orphanZombies cs).proc q =
      if q ∈ cs ∧ (k.proc q).state = .zombie then { k.proc q with parent := none } else k.proc q := by
  induction cs generalizing k with
  | nil => simp [orphanZombies]
  | cons c cs ih =>
    unfold orphanZombies
    by_cases hc : (k.proc c).state = .zombie
    · rw [if_pos hc, ih, modify_proc]
      by_cases hq : q = c
      · subst hq
        simp [hc]
      · simp [hq]
    · rw [if_neg hc, ih]
      by_cases hq : q = c
      · subst hq
        simp [hc]
      · simp [hq]

theorem orphanZombies_same (cs : List Nat) : OnlyProc k (k.orphanZombies cs) := by
  induction cs generalizing k with
  | nil => exact .refl _
  | cons c cs ih =>
    unfold orphanZombies
    split
    · exact (OnlyProc.modify ..).trans ih
    · exact ih

/-! ### `thread_killThread` -/

theorem modify_quota (k : Kernel) (p quota q : Nat) :
    ∃ quota', (k.modify p fun r => { r with quota }).proc q = { k.proc q with quota := quota' } := by
  rw [modify_proc]
  split
  · exact ⟨_, rfl⟩
  · exact ⟨_, rfl⟩

theorem yieldAfterKill_eq (k : Kernel) (prc : Nat) :
    ∃ proc runningTask, k.yieldAfterKill prc = { k with proc, runningTask } ∧
      (runningTask = k.runningTask ∨ k.runningTask = some prc ∧ runningTask = some idle) ∧
      ∀ q, ∃ quota, proc q = { k.proc q with quota } := by
  unfold yieldAfterKill
  cases hr : k.runningTask with
  | none => exact ⟨k.proc, k.runningTask, rfl, .inl hr, fun q => ⟨_, rfl⟩⟩
  | some r =>
    simp only
    split
    next h => exact ⟨_, some idle, rfl, .inr ⟨by rw [h], rfl⟩, modify_quota k idle _⟩
    · exact ⟨_, k.runningTask, rfl, .inl hr, modify_quota k r _⟩

theorem clearQueues_same (k : Kernel) (prc : Nat) (cs : List Nat) : OnlyProc k (k.clearQueues prc cs) :=
  ((OnlyProc.modify ..).trans (orphanZombies_same cs)).trans (.modify ..)

def notice : Option Nat → List (Nat × Nat)
  | none => []
  | some par => [(par, 20)]

theorem notifyParent_eq (k : Kernel) (parent : Option Nat) : k.notifyParent parent =
    { k with proc := (k.notifyParent parent).proc, sent := notice parent ++ k.sent } := by
  cases parent <;> rfl

theorem clearQueues_proc (cs : List Nat) (q : Nat) :
    (k.clearQueues prc cs).proc q =
      { k.proc q with
        parent := if q ∈ cs ∧ (k.proc q).state = .zombie then none else (k.proc q).parent
        childQueue := if q = prc then [] else (k.proc q).childQueue
        signalQueue := if q = prc then [] else (k.proc q).signalQueue } := by
  unfold clearQueues
  rw [modify_proc, orphanZombies_proc, modify_proc]
  by_cases hq : q = prc
  · simp only [hq, if_true]
    split <;> rfl
  · simp only [hq, if_false]
    split <;> rfl

theorem freeThread_eq (k : Kernel) (prc : Nat) : k.freeThread prc =
    { k with
      taskList := if (k.proc prc).type = .thread then k.taskList.erase prc else k.taskList
      freed := if (k.proc prc).type = .thread then prc :: k.freed else k.freed } := by
  unfold freeThread
  split <;> rfl

theorem notifyParent_proc (parent : Option Nat) (q : Nat) :
    (k.notifyParent parent).proc q =
      { k.proc q with signalQueue := (k.proc q).signalQueue ++ if parent = some q then [20] else [] } := by
  cases parent with
  | none => simp [notifyParent]
  | some par =>
    unfold notifyParent enqueueSignal
    simp only [modify_proc]
    by_cases hq : q = par
    · simp [hq]
    · simp [hq, Ne.symm hq]

theorem removePrc_ok (h : k.removePrc prc = .ok k') : ∃ priority0 priority1, k' = { k with priority0, priority1 } ∧
    ((k.proc prc).priority = 0 ∧ priority0 = k.priority0.remove prc ∧ priority1 = k.priority1 ∨
      (k.proc prc).priority = 1 ∧ priority0 = k.priority0 ∧ priority1 = k.priority1.remove prc) := by
  unfold removePrc at h
  split at h
  next hp =>
    cases h
    exact ⟨_, _, rfl, .inl ⟨hp, rfl, rfl⟩⟩
  next hp =>
    cases h
    exact ⟨_, _, rfl, .inr ⟨hp, rfl, rfl⟩⟩
  all_goals cases h

def markDead (p : Process) (code : Int) : Process :=
  { p with exitCode := exitCodeOf code, died := true, state := .zombie }

/-- `prc` was killed: its structure is dead, it left the task list and the queue of its priority, its
    dead children belong to the first process of the task list, and its parent has signal 20. -/
structure Killed (k : Kernel) (prc : Nat) (code : Int) (k' : Kernel) : Prop where
  ne_init : prc ≠ 1
  freePid : k'.freePid = k.freePid
  delivered : k'.delivered = k.delivered
  taskList : k'.taskList =
    if (k.proc prc).type = .thread then (k.taskList.erase prc).erase prc else k.taskList.erase prc
  freed : k'.freed = if (k.proc prc).type = .thread then prc :: k.freed else k.freed
  sent : k'.sent = notice (k.proc prc).parent ++ k.sent
  queue : ((k.proc prc).priority = 0 ∧ k'.priority0 = k.priority0.remove prc ∧ k'.priority1 = k.priority1) ∨
    (k.proc prc).priority = 1 ∧ k'.priority0 = k.priority0 ∧ k'.priority1 = k.priority1.remove prc
  running : k'.runningTask = k.runningTask ∨ k.runningTask = some prc ∧ k'.runningTask = some idle
  core : ∀ q ≠ prc, SameCore (k.proc q) (k'.proc q)
  dead : SameCore (markDead (k.proc prc) code) (k'.proc prc)
  parent : ∀ q, (k'.proc q).parent =
    if q ∈ (k.proc prc).childQueue ∧ (q = prc ∨ (k.proc q).state = .zombie) then none else (k.proc q).parent
  childQueue : ∀ q, (k'.proc q).childQueue = if q = prc then [] else (k.proc q).childQueue ++
    if (k.taskList.erase prc).head? = some q then
      (k.proc prc).childQueue.filter fun c => c = prc ∨ (k.proc c).died ∨ (k.proc c).state = .zombie
    else []
  signalQueue : ∀ q, (k'.proc q).signalQueue =
    (if q = prc then [] else (k.proc q).signalQueue) ++ if (k.proc prc).parent = some q then [20] else []

section
variable (h : Killed k prc code k')
include h

theorem Killed.mem_taskList (hnodup : k.taskList.Nodup) : q ∈ k'.taskList ↔ q ≠ prc ∧ q ∈ k.taskList := by
  rw [h.taskList]
  split
  · rw [(hnodup.erase prc).mem_erase_iff, hnodup.mem_erase_iff]
    exact ⟨And.right, fun h => ⟨h.1, h⟩⟩
  · exact hnodup.mem_erase_iff

theorem Killed.nodup (hnodup : k.taskList.Nodup) : k'.taskList.Nodup := by
  rw [h.taskList]
  split
  · exact (hnodup.erase _).erase _
  · exact hnodup.erase _

theorem Killed.type (q : Nat) : (k'.proc q).type = (k.proc q).type := by
  by_cases hq : q = prc
  · rw [hq]
    exact h.dead.type
  · exact (h.core q hq).type

theorem Killed.ne_of_live (hlive : (k'.proc q).died = false) : q ≠ prc := by
  rintro rfl
  rw [h.dead.died] at hlive
  cases hlive

theorem Killed.running_lt (hidle : idle < k.freePid)
    (hrun : ∀ p, k.runningTask = some p → p < k.freePid) : ∀ p, k'.runningTask = some p → p < k'.freePid := by
  intro p hp
  rw [h.freePid]
  rcases h.running with hsame | ⟨-, hnew⟩
  · exact hrun p (hsame ▸ hp)
  · rw [hnew] at hp
    cases hp
    exact hidle

theorem Killed.not_mem_freed (htype : (k.proc q).type = .process) (hq : q ∉ k.freed) : q ∉ k'.freed := by
  rw [h.freed]
  split
  next hthread =>
    intro hmem
    rcases mem_cons.mp hmem with rfl | hmem
    · rw [htype] at hthread
      cases hthread
    · exact hq hmem
  · exact hq

end

theorem bury_eq (k : Kernel) (prc : Nat) (cs : List Nat) (parent : Option Nat) (reschedule : Bool) :
    ∃ proc runningTask, k.bury prc cs parent reschedule =
        { k with
          proc, runningTask, sent := notice parent ++ k.sent
          taskList := if (k.proc prc).type = .thread then k.taskList.erase prc else k.taskList
          freed := if (k.proc prc).type = .thread then prc :: k.freed else k.freed } ∧
      (runningTask = k.runningTask ∨ k.runningTask = some prc ∧ runningTask = some idle) ∧
      ∀ q, ∃ quota, proc q =
        { k.proc q with
          parent := if q ∈ cs ∧ (k.proc q).state = .zombie then none else (k.proc q).parent
          childQueue := if q = prc then [] else (k.proc q).childQueue
          signalQueue := (if q = prc then [] else (k.proc q).signalQueue) ++ if parent = some q then [20] else []
          quota } := by
  obtain ⟨proc, hclear⟩ := clearQueues_same k prc cs
  have hproc (q : Nat) : (k.clearQueues prc cs).proc q = _ := clearQueues_proc cs q
  simp only [hclear] at hproc
  unfold bury
  simp only [hclear, freeThread_eq, hproc prc]
  cases reschedule with
  | false =>
    refine ⟨_, k.runningTask, notifyParent_eq .., .inl rfl, fun q => ⟨(k.proc q).quota, ?_⟩⟩
    simp only [notifyParent_proc, if_neg Bool.false_ne_true, hproc]
  | true =>
    rw [if_pos rfl]
    generalize hk₁ : ({ k with proc, taskList := _, freed := _ } : Kernel) = k₁
    obtain ⟨proc₂, runningTask, hyield, hr, hquota⟩ := yieldAfterKill_eq k₁ prc
    subst hk₁
    rw [hyield]
    refine ⟨_, runningTask, notifyParent_eq .., hr, fun q => ?_⟩
    obtain ⟨quota, hq⟩ := hquota q
    exact ⟨quota, by simp only [notifyParent_proc, hq, hproc]⟩

theorem threadKillThread_ok {reschedule : Bool} (h : k.threadKillThread prc code reschedule = .ok k') :
    Killed k prc code k' := by
  unfold threadKillThread at h
  by_cases h1 : prc = 1
  · rw [if_pos h1] at h
    cases h
  rw [if_neg h1] at h
  obtain ⟨k₁, hremove, hrest⟩ := bind_ok h
  obtain ⟨k₂, hreparent, hlast⟩ := bind_ok hrest
  simp only [pure, Except.pure, Except.ok.injEq] at hlast
  obtain ⟨priority0, priority1, rfl, hqueue⟩ := removePrc_ok hremove
  have hproc₂ (q : Nat) : k₂.proc q = { (k.modify prc (markDead · code)).proc q with
      childQueue := ((k.modify prc (markDead · code)).proc q).childQueue ++
        if (k.taskList.erase prc).head? = some q then
          (k.proc prc).childQueue.filter fun c => c = prc ∨ (k.proc c).died ∨ (k.proc c).state = .zombie else [] } := by
    refine (reparentZombies_proc hreparent q).trans ?_
    have hdead : deadChildren { k.modify prc (markDead · code) with priority0, priority1, taskList := k.taskList.erase prc }
        (k.proc prc).childQueue =
          (k.proc prc).childQueue.filter fun c => c = prc ∨ (k.proc c).died ∨ (k.proc c).state = .zombie := by
      refine filter_congr fun c _ => decide_eq_decide.mpr ?_
      simp only [modify_proc]
      by_cases hc : c = prc
      · simp [hc, markDead]
      · simp [hc]
    rw [← hdead]
    rfl
  obtain ⟨proc', runningTask, hbury, hrun, hproc⟩ := bury_eq k₂ prc (k.proc prc).childQueue (k.proc prc).parent reschedule
  have htype : (k₂.proc prc).type = (k.proc prc).type := by
    rw [hproc₂, modify_self]
    rfl
  rw [hlast, htype] at hbury
  obtain rfl : k'.proc = proc' := congrArg proc hbury
  obtain ⟨proc₂, hsame⟩ := reparentZombies_same hreparent
  rw [hsame] at hbury hrun
  refine ⟨h1, (congrArg freePid hbury :), (congrArg delivered hbury :), (congrArg taskList hbury :),
    (congrArg freed hbury :), (congrArg sent hbury :), ?_, ?_, ?_, ?_, ?_, ?_, ?_⟩
  · rw [modify_self] at hqueue
    rw [hbury]
    exact hqueue
  · rw [hbury]
    exact hrun
  · intro q hq
    obtain ⟨quota, hk'⟩ := hproc q
    rw [hk', hproc₂, modify_of_ne _ _ _ _ hq]
    exact ⟨⟨rfl, rfl, rfl, rfl⟩, rfl, rfl, rfl, rfl, rfl, rfl⟩
  · obtain ⟨quota, hk'⟩ := hproc prc
    rw [hk', hproc₂, modify_self]
    exact ⟨⟨rfl, rfl, rfl, rfl⟩, rfl, rfl, rfl, rfl, rfl, rfl⟩
  · intro q
    obtain ⟨quota, hk'⟩ := hproc q
    rw [hk']
    simp only [hproc₂, modify_proc]
    by_cases hq : q = prc
    · simp [hq, markDead]
    · simp [hq]
  · intro q
    obtain ⟨quota, hk'⟩ := hproc q
    rw [hk']
    by_cases hq : q = prc
    · simp [hq]
    · simp only [hproc₂, modify_of_ne _ _ _ _ hq]
  · intro q
    obtain ⟨quota, hk'⟩ := hproc q
    rw [hk']
    by_cases hq : q = prc
    · simp [hq]
    · simp only [hproc₂, modify_of_ne _ _ _ _ hq]

/-! ### `thread_create` -/

theorem enqueueChild_proc (k : Kernel) (pid q : Nat) :
    (k.enqueueChild pid).proc q =
      { k.proc q with
        childQueue := (k.proc q).childQueue ++
          if k.runningTask = some q ∧ q ≠ idle ∧ (k.proc q).state = .running then [pid] else [] } := by
  unfold enqueueChild
  cases k.runningTask with
  | none => simp
  | some r =>
    by_cases hq : q = r
    · subst hq
      by_cases hc : q ≠ idle ∧ (k.proc q).state = .running
      · simp [hc]
      · simp [hc]
    · have hr : ¬r = q := fun h => hq h.symm
      simp only [Option.some.injEq, hr, false_and, if_false, append_nil]
      split
      · rw [modify_of_ne _ _ _ _ hq]
      · rfl

theorem enqueueChild_same (k : Kernel) (pid : Nat) : OnlyProc k (k.enqueueChild pid) := by
  unfold enqueueChild
  cases k.runningTask with
  | none => exact .refl _
  | some r =>
    simp only
    split
    · exact .modify ..
    · exact .refl _

theorem pushPrc_ok {p : Nat} (h : k.pushPrc p = .ok k') : { k with priority1 := k.priority1.write p } = k' := by
  unfold pushPrc at h
  split at h
  · cases h
  · exact Except.ok.inj h

structure Created (k : Kernel) (isUser : Bool) (k' : Kernel) : Prop where
  freePid : k'.freePid = k.freePid + 1
  taskList : k'.taskList = k.taskList ++ [k.freePid]
  priority0 : k'.priority0 = k.priority0
  priority1 : k'.priority1 = k.priority1.write k.freePid
  running : k'.runningTask = k.runningTask
  freed : k'.freed = k.freed
  sent : k'.sent = k.sent
  delivered : k'.delivered = k.delivered
  proc : ∀ q ≠ k.freePid, k'.proc q =
    { k.proc q with
      childQueue := (k.proc q).childQueue ++
        if k.runningTask = some q ∧ q ≠ idle ∧ (k.proc q).state = .running then [k.freePid] else [] }
  new : k'.proc k.freePid = { Process.new k.runningTask isUser with
    childQueue := if k.runningTask = some k.freePid ∧ k.freePid ≠ idle then [k.freePid] else [] }

theorem threadCreate_ok {pid : Nat} (h : k.threadCreate isUser = .ok (pid, k')) :
    pid = k.freePid ∧ Created k isUser k' := by
  obtain ⟨k₁, hpush, h⟩ := bind_ok h
  obtain ⟨rfl, rfl⟩ := h
  obtain rfl := pushPrc_ok hpush
  have hproc (q : Nat) := enqueueChild_proc (k.modify k.freePid fun _ => .new k.runningTask isUser) k.freePid q
  obtain ⟨proc, hsame⟩ := enqueueChild_same (k.modify k.freePid fun _ => .new k.runningTask isUser) k.freePid
  rw [hsame] at hproc ⊢
  refine ⟨rfl, rfl, rfl, rfl, rfl, rfl, rfl, rfl, rfl, fun q hq => ?_, ?_⟩
  · rw [hproc, modify_of_ne _ _ _ _ hq]
    rfl
  · rw [hproc]
    simp [Process.new]

theorem Created.new_of_ne (h : Created k isUser k') (hne : k.runningTask ≠ some k.freePid) :
    k'.proc k.freePid = .new k.runningTask isUser := by
  rw [h.new, if_neg fun h => hne h.1]
  rfl

section
variable {isUser : Bool} {P : Nat → Process → Prop} (h : Created k isUser k')
include h

theorem Created.nodup (hnodup : k.taskList.Nodup) (hlt : ∀ p ∈ k.taskList, p < k.freePid) : k'.taskList.Nodup := by
  rw [h.taskList]
  refine nodup_append.mpr ⟨hnodup, pairwise_singleton _ _, ?_⟩
  rintro p hp p' hp' rfl
  rw [mem_singleton.mp hp'] at hp
  exact Nat.lt_irrefl _ (hlt _ hp)

theorem Created.running_lt (hrun : ∀ p, k.runningTask = some p → p < k.freePid) :
    ∀ p, k'.runningTask = some p → p < k'.freePid := by
  intro p hp
  rw [h.running] at hp
  rw [h.freePid]
  exact Nat.lt_succ_of_lt (hrun p hp)

section
variable (hP : ∀ p x cs, P p x → P p { x with childQueue := cs }) (hnew : P k.freePid (.new k.runningTask isUser))
include hP hnew

theorem Created.forall_lt (hold : ∀ p < k.freePid, P p (k.proc p)) : ∀ p < k'.freePid, P p (k'.proc p) := by
  intro p hlt
  by_cases hp : p = k.freePid
  · rw [hp, h.new]
    exact hP _ _ _ hnew
  · rw [h.freePid] at hlt
    rw [h.proc p hp]
    exact hP _ _ _ (hold p (by omega))

theorem Created.forall_mem {l : List Nat} (hold : ∀ p ∈ l, p < k.freePid ∧ P p (k.proc p)) :
    ∀ p, p ∈ l ∨ p = k.freePid → P p (k'.proc p) := by
  rintro p (hp | rfl)
  · obtain ⟨hlt, hp⟩ := hold p hp
    rw [h.proc p (Nat.ne_of_lt hlt)]
    exact hP _ _ _ hp
  · rw [h.new]
    exact hP _ _ _ hnew

end

end

structure Booted (k : Kernel) : Prop where
  taskList : k.taskList = []
  priority0 : k.priority0 = .new 1000
  priority1 : k.priority1 = (RingBuffer.new 1000).write idle
  running : k.runningTask = some idle
  freePid : k.freePid = 1
  freed : k.freed = []
  sent : k.sent = []
  delivered : k.delivered = []
  proc_idle : k.proc idle = { Process.new none false with state := .idle }
  fresh : ∀ p ≠ idle, (k.proc p).type = .process ∧ (k.proc p).parent = none ∧ (k.proc p).childQueue = []

theorem Booted.eq_idle {p : Nat} (h : Booted k) (hp : p < k.freePid) : p = idle := by
  rw [h.freePid] at hp
  exact Nat.lt_one_iff.mp hp

theorem Booted.proc_eq {p : Nat} (h : Booted k) (hp : p < k.freePid) :
    k.proc p = { Process.new none false with state := .idle } := by
  rw [h.eq_idle hp]
  exact h.proc_idle

theorem threadInit_ok (h : threadInit = .ok k) : Booted k := by
  obtain ⟨⟨th, k₁⟩, hcreate, h⟩ := bind_ok h
  cases h
  obtain ⟨rfl, hc⟩ := threadCreate_ok hcreate
  refine ⟨congrArg List.tail hc.taskList, hc.priority0, hc.priority1, rfl, hc.freePid, hc.freed, hc.sent, hc.delivered,
    ?_, ?_⟩
  · refine (modify_self { k₁ with taskList := k₁.taskList.tail } idle fun p => { p with state := .idle }).trans ?_
    exact congrArg (fun p => { p with state := Status.idle }) hc.new
  · intro p hp
    have hproc := modify_of_ne { k₁ with taskList := k₁.taskList.tail } idle p (fun p => { p with state := .idle }) hp
    have hold := hproc.trans (hc.proc p hp)
    exact ⟨congrArg Process.type hold, congrArg Process.parent hold, congrArg Process.childQueue hold⟩

end Kernel
end HelinKern
