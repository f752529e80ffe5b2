import HelinKern.Theorems.Waitpid

/-! Which process a pid stands for: `thread_getThread` and `sys_kill`. -/

namespace HelinKern
variable {p : Nat} {k k' : Kernel} {code : Int}

namespace Kernel
open Lts RingBuffer List Option

structure Rings (k : Kernel) : Prop where
  priority0 : ∃ q, k.priority0.Holds q
  priority1 : ∃ q, k.priority1.Holds q

/-- The processes other than `p` are as often in the rings as before. -/
structure SameEntries (p : Nat) (k k' : Kernel) : Prop where
  priority0 : ∀ q, q ≠ p → k'.priority0.toList.count q = k.priority0.toList.count q
  priority1 : ∀ q, q ≠ p → k'.priority1.toList.count q = k.priority1.toList.count q

theorem SameEntries.of_eq (h0 : k'.priority0 = k.priority0) (h1 : k'.priority1 = k.priority1) : SameEntries p k k' :=
  ⟨fun q _ => by rw [h0], fun q _ => by rw [h1]⟩

theorem SameEntries.trans {k'' : Kernel} (h : SameEntries p k k') (h' : SameEntries p k' k'') :
    SameEntries p k k'' :=
  ⟨fun q hq => (h'.priority0 q hq).trans (h.priority0 q hq), fun q hq => (h'.priority1 q hq).trans (h.priority1 q hq)⟩

namespace Rings
variable {k k' : Kernel} {p : Nat}

variable (h : Rings k)
include h

theorem of_eq (h0 : k'.priority0 = k.priority0) (h1 : k'.priority1 = k.priority1) : Rings k' :=
  ⟨h0 ▸ h.priority0, h1 ▸ h.priority1⟩

theorem write (h0 : k'.priority0 = k.priority0) (h1 : k'.priority1 = k.priority1.write p) : Rings k' ∧ SameEntries p k k' := by
  obtain ⟨q, hq⟩ := h.priority1
  obtain ⟨q', hq', hcount⟩ := hq.write
  refine ⟨⟨h0 ▸ h.priority0, q', h1 ▸ hq'⟩, fun x _ => by rw [h0], fun x hx => ?_⟩
  rw [h1, hq'.toList_eq, hq.toList_eq]
  exact hcount x hx

theorem killed (hk : Killed k p code k') : Rings k' ∧ SameEntries p k k' := by
  obtain ⟨q₀, hq₀⟩ := h.priority0
  obtain ⟨q₁, hq₁⟩ := h.priority1
  rcases hk.queue with ⟨-, h0, h1⟩ | ⟨-, h0, h1⟩
  · refine ⟨⟨⟨_, h0 ▸ hq₀.remove⟩, h1 ▸ h.priority1⟩, fun x hx => ?_, fun x _ => by rw [h1]⟩
    rw [h0, hq₀.remove.toList_eq, hq₀.toList_eq, count_erase_of_ne hx]
  · refine ⟨⟨h0 ▸ h.priority0, _, h1 ▸ hq₁.remove⟩, fun x _ => by rw [h0], fun x hx => ?_⟩
    rw [h1, hq₁.remove.toList_eq, hq₁.toList_eq, count_erase_of_ne hx]

theorem pickTask {picked : Option Nat} (hpick : k.pickTask = .ok (picked, k')) : Rings k' := by
  obtain ⟨q, hq⟩ := h.priority1
  have hre : ∀ {q'}, Requeued k q' k' → Rings k' := by
    rintro q' ⟨ring, hring, -, rfl⟩
    exact ⟨h.priority0, q', hring⟩
  rcases pickTask_ok hq hpick with ⟨-, -, rfl⟩ | ⟨x, rest, -, -, hr, -⟩ | ⟨x, rest, q', -, hr, -⟩
  · exact h
  · exact hre hr
  · exact hre hr

theorem move (hm : Move k k') : Rings k' := by
  cases hm with
  | quota | run => exact h.of_eq rfl rfl
  | push p =>
    have hring : Rings { k with priority1 := k.priority1.write p } := And.left (h.write rfl rfl)
    exact hring
  | pick hpick => exact h.pickTask hpick
  | take =>
    obtain ⟨-, h0, h1, -⟩ := takeSignal_same k _
    exact h.of_eq h0 h1
  | @fatal _ p num rest _ _ hkill =>
    have hmodified : Rings (k.modify p fun q => { q with signalQueue := rest }) := h.of_eq rfl rfl
    exact (hmodified.killed hkill).1
  | orphan _ _ _ hkill => exact (h.killed hkill).1

theorem schedule {r : Scheduled} (hs : k.threadSchedule = .ok (k', r)) : Rings k' :=
  (threadSchedule_moves hs).invariant Rings (fun h hm => h.move hm) h

theorem sendSignal {sig : Int} (hs : k.sendSignal p sig = .ok k') : Rings k' ∧ SameEntries p k k' := by
  obtain ⟨k₁, k₂, hwake, hkill, rfl⟩ := sendSignal_ok hs
  have hk₁ : Rings k₁ ∧ SameEntries p k k₁ := by
    rcases hwake with ⟨rfl, -⟩ | ⟨rfl, -⟩
    · exact ⟨h.of_eq rfl rfl, .of_eq rfl rfl⟩
    · exact h.write rfl rfl
  have hk₂ : Rings k₂ ∧ SameEntries p k k₂ := by
    rcases hkill with rfl | ⟨-, -, hk⟩
    · exact hk₁
    · exact ⟨(hk₁.1.killed hk).1, hk₁.2.trans (hk₁.1.killed hk).2⟩
  obtain ⟨proc, hsame⟩ := threadForceSwitch_same k₂
  rw [hsame]
  exact ⟨hk₂.1.of_eq rfl rfl, hk₂.2.trans (.of_eq rfl rfl)⟩

theorem sysSigexit (signum : Nat) : Rings (k.sysSigexit signum) := by
  obtain ⟨⟨proc, hsame⟩, -⟩ := sysSigexit_eq k signum
  rw [hsame]
  exact h.of_eq rfl rfl

theorem step {c : Call} (hs : Step k c k') : Rings k' := by
  cases hs with
  | create hc =>
    obtain ⟨-, hc⟩ := threadCreate_ok hc
    exact (h.write hc.priority0 hc.priority1).1
  | schedule hs => exact h.schedule hs
  | kill _ hk => exact (h.killed (threadKillThread_ok hk)).1
  | sysKill hk =>
    rcases sysKill_ok hk with ⟨rfl, -⟩ | ⟨prc, -, -, -, ⟨-, hk⟩ | ⟨-, -, -, hsend⟩⟩
    · exact h
    · exact (h.killed hk).1
    · exact (h.sendSignal hsend).1
  | nice => exact h.of_eq rfl rfl
  | sigexit => exact h.sysSigexit _
  | clone hc =>
    obtain ⟨-, k₁, aspace, hcreated, rfl⟩ := sysClone_ok hc
    exact ((h.write hcreated.priority0 hcreated.priority1).1).of_eq rfl rfl
  | waitpid _ hpoll =>
    obtain ⟨-, -, hreap⟩ := waitpidPoll_some hpoll
    cases hreap
    exact h.of_eq rfl rfl
  | waitpidAny hany =>
    obtain ⟨-, -, hreap⟩ := waitpidAny_some hany
    cases hreap
    exact h.of_eq rfl rfl

end Rings

theorem Booted.rings (h : Booted k) : Rings k := by
  have hnew : (RingBuffer.new (α := Nat) 1000).Holds [] := .new (by decide)
  obtain ⟨q, hq, -⟩ := hnew.write
  exact ⟨⟨[], h.priority0 ▸ hnew⟩, q, h.priority1 ▸ hq⟩

structure ActsOn (p : Nat) (k k' : Kernel) : Prop where
  state : ∀ q, q ≠ p → (k'.proc q).state = (k.proc q).state
  signalQueue : ∀ q, q ≠ p → (k'.proc q).signalQueue = (k.proc q).signalQueue ∨
    (k.proc p).parent = some q ∧ (k'.proc p).died = true ∧
      (k'.proc q).signalQueue = (k.proc q).signalQueue ++ [20]
  entries : SameEntries p k k'

structure Untouched (k k' : Kernel) : Prop where
  state : ∀ q, (k'.proc q).state = (k.proc q).state
  signalQueue : ∀ q, (k'.proc q).signalQueue = (k.proc q).signalQueue
  priority0 : k'.priority0 = k.priority0
  priority1 : k'.priority1 = k.priority1

/-- What `sys_kill` and `thread_getThread` do with a pid: they act on the process of the task list that has it, or
    find none. -/
structure Addresses (k : Kernel) (pid sig : Int) : Prop where
  present : pid.toNat ∈ k.taskList → k.threadGetThread pid = some pid.toNat ∧
    ∀ res k', k.sysKill pid sig = .ok (res, k') → ActsOn pid.toNat k k'
  absent : pid.toNat ∉ k.taskList → k.threadGetThread pid = none ∧
    ∃ k', k.sysKill pid sig = .ok (if 32 ≤ sig then -eINVAL else -eSRCH, k') ∧ Untouched k k'

section Addresses
variable {k k' : Kernel} {p : Nat} {pid sig : Int}

theorem ActsOn.refl (p : Nat) (k : Kernel) : ActsOn p k k :=
  ⟨fun _ _ => rfl, fun _ _ => Or.inl rfl, .of_eq rfl rfl⟩

theorem Rings.killed_actsOn (h : Rings k) (hk : Killed k p code k') : ActsOn p k k' := by
  refine ⟨fun q hq => (hk.core q hq).state, fun q hq => ?_, (h.killed hk).2⟩
  have hqueue := hk.signalQueue q
  rw [if_neg hq] at hqueue
  split at hqueue
  next hparent => exact Or.inr ⟨hparent, hk.dead.died, hqueue⟩
  · exact Or.inl (hqueue.trans (append_nil _))

theorem Rings.sendSignal_actsOn (h : Rings k) (hs : k.sendSignal p sig = .ok k') : ActsOn p k k' := by
  have hentries := (h.sendSignal hs).2
  obtain ⟨k₁, k₂, hwake, hkill, rfl⟩ := sendSignal_ok hs
  -- Before a default action only the process itself changed.
  have hothers : Rings k₁ ∧ (∀ q, q ≠ p → k₁.proc q = k.proc q) ∧ (k₁.proc p).parent = (k.proc p).parent := by
    have hsent : ∀ q, q ≠ p → (k.enqueueSignal p (sig % 4294967296).toNat).proc q = k.proc q := by
      intro q hq
      rw [enqueueSignal_proc, if_neg hq, append_nil]
    rcases hwake with ⟨rfl, -⟩ | ⟨rfl, -⟩
    · exact ⟨h.of_eq rfl rfl, hsent, by rw [enqueueSignal_proc]⟩
    have hwritten : Rings ((k.enqueueSignal p (sig % 4294967296).toNat).woken p) ∧
        SameEntries p k ((k.enqueueSignal p (sig % 4294967296).toNat).woken p) := h.write rfl rfl
    refine ⟨hwritten.1, fun q hq => ?_, ?_⟩
    · exact (modify_of_ne _ p q (fun r => { r with state := .running }) hq).trans (hsent q hq)
    · simp only [woken, modify_self, enqueueSignal_proc]
  obtain ⟨hrings, hproc, hparent⟩ := hothers
  have hforced : ∀ q, (k₂.threadForceSwitch.proc q).state = (k₂.proc q).state ∧
      (k₂.threadForceSwitch.proc q).signalQueue = (k₂.proc q).signalQueue ∧
      (k₂.threadForceSwitch.proc q).died = (k₂.proc q).died := by
    intro q
    obtain ⟨quota, hq⟩ := threadForceSwitch_proc k₂ q
    rw [hq]
    exact ⟨rfl, rfl, rfl⟩
  have hacts : ActsOn p k₁ k₂ := by
    rcases hkill with rfl | ⟨-, -, hk⟩
    · exact .refl p k₂
    · exact hrings.killed_actsOn hk
  refine ⟨fun q hq => ?_, fun q hq => ?_, hentries⟩
  · rw [(hforced q).1, hacts.state q hq, hproc q hq]
  · rw [(hforced q).2.1, (hforced p).2.2, ← hproc q hq, ← hparent]
    exact hacts.signalQueue q hq

theorem Rings.sysKill_actsOn {res : Int} (h : Rings k) (hfound : k.threadGetThread pid = some p)
    (hk : k.sysKill pid sig = .ok (res, k')) : ActsOn p k k' := by
  rcases sysKill_ok hk with ⟨rfl, -⟩ | ⟨prc, hprc, -, -, ⟨-, hkilled⟩ | ⟨-, -, -, hsend⟩⟩
  · exact .refl p k'
  · rw [hfound] at hprc
    cases hprc
    exact h.killed_actsOn hkilled
  · rw [hfound] at hprc
    cases hprc
    exact h.sendSignal_actsOn hsend

theorem sysKill_of_none (hnone : k.threadGetThread pid = none) :
    k.sysKill pid sig = .ok (if 32 ≤ sig then -eINVAL else -eSRCH, k) := by
  unfold sysKill
  rw [hnone]
  by_cases hkill : sig = 9 ∨ sig = 0
  · rw [if_pos hkill, if_neg (by omega)]
  rw [if_neg hkill]
  split
  · rfl
  · rfl

theorem KinInv.addresses_iff_listed (inv : KinInv k) (hrings : Rings k) (hpid : 0 < pid) :
    Addresses k pid sig ↔ pid.toNat ∈ k.taskList ∨ k.freePid < pid := by
  constructor
  · intro h
    by_contra hno
    obtain ⟨hmem, hle⟩ := not_or.mp hno
    have hidle : k.threadGetThread pid = some idle := by
      unfold Kernel.threadGetThread
      rw [if_neg (by omega), if_neg hmem]
    rw [(h.absent hmem).1] at hidle
    cases hidle
  · rintro (hmem | hlt)
    · have hfound : k.threadGetThread pid = some pid.toNat := by
        have hlt := (inv.task _ hmem).1
        unfold Kernel.threadGetThread
        rw [if_neg (by omega), if_pos hmem]
      exact ⟨fun _ => ⟨hfound, fun res k' hk => hrings.sysKill_actsOn hfound hk⟩, fun hno => absurd hmem hno⟩
    · have hnone : k.threadGetThread pid = none := by
        unfold Kernel.threadGetThread
        rw [if_pos (Or.inr hlt)]
      refine ⟨fun hmem => ?_, fun _ => ⟨hnone, k, sysKill_of_none hnone, fun _ => rfl, fun _ => rfl, rfl, rfl⟩⟩
      have := (inv.task _ hmem).1
      omega

end Addresses

/-- In every state that is reached a pid stands for the process of the task list that has it, or for none, exactly if
    there is such a process or the pid is greater than `freePid`. -/
theorem addresses_iff {k₀ k : Kernel} {calls : List Call} (hinit : threadInit = .ok k₀) (hrun : Run Step k₀ calls k)
    {pid : Int} (hpid : 0 < pid) (sig : Int) : Addresses k pid sig ↔ pid.toNat ∈ k.taskList ∨ k.freePid < pid :=
  have hboot := threadInit_ok hinit
  (hboot.kinInv.run hrun).addresses_iff_listed (hrun.invariant Rings hboot.rings fun h hs => h.step hs) hpid

def initRuns : List Call := [.create true, .schedule (.switched 1)]

/-- Init is found by its pid. -/
theorem addresses_iff_init :
    ∃ k₀ k, threadInit = .ok k₀ ∧ Run Step k₀ initRuns k ∧ k.taskList = [1] ∧ Addresses k 1 10 := by
  have heval : (threadInit.toOption.bind (Run.execAll exec (fun _ _ _ => true) · initRuns)).any (·.taskList = [1]) =
      true := by decide +kernel
  obtain ⟨k₀, k, hinit, hrun, hlist⟩ := Run.of_any step_of_exec And.left heval
  replace hlist := of_decide_eq_true hlist
  refine ⟨k₀, k, toOption_eq_some hinit, hrun, hlist, ?_⟩
  exact (addresses_iff (toOption_eq_some hinit) hrun (by decide) 10).mpr (Or.inl (by rw [hlist]; decide))

/-- Init sends signal 10 to process 2, which does not exist: the idle process gets it and is made to run. -/
theorem absent_pid_addresses_idle :
    ∃ k₀ k k', threadInit = .ok k₀ ∧ Run Step k₀ initRuns k ∧ 2 ∉ k.taskList ∧ k.threadGetThread 2 = some idle ∧
      k.sysKill 2 10 = .ok (0, k') ∧ (k.proc idle).state = .idle ∧ (k'.proc idle).state = .running ∧
      (k.proc idle).signalQueue = [] ∧ (k'.proc idle).signalQueue = [10] := by
  have heval : (threadInit.toOption.bind (Run.execAll exec (fun _ _ _ => true) · initRuns)).bind (fun k =>
      (k.sysKill 2 10).toOption.map fun r => decide (2 ∉ k.taskList ∧ k.threadGetThread 2 = some idle ∧ r.1 = 0 ∧
        (k.proc idle).state = .idle ∧ (r.2.proc idle).state = .running ∧ (k.proc idle).signalQueue = [] ∧
        (r.2.proc idle).signalQueue = [10])) = some true := by decide +kernel
  obtain ⟨k, hk, hkill⟩ := bind_eq_some_iff.mp heval
  obtain ⟨k₀, hinit, hk⟩ := bind_eq_some_iff.mp hk
  obtain ⟨⟨res, k'⟩, hok, hend⟩ := map_eq_some_iff.mp hkill
  obtain ⟨habsent, hfound, rfl, hstates⟩ := of_decide_eq_true hend
  exact ⟨k₀, k, k', toOption_eq_some hinit, (Run.of_execAll step_of_exec hk).mono And.left, habsent, hfound,
    toOption_eq_some hok, hstates⟩

end Kernel
end HelinKern
