import HelinKern.Theorems.Waitpid

/-! The status that `sys_waitpid` stores for a process, from the code it was killed with to what the macros of POSIX read. -/

namespace HelinKern
variable {c : Int} {q : Nat}

namespace Kernel
open Lts List Option

inductive WaitStatus
  | exited (value : Int)
  | signaled (sig : Int)
  deriving DecidableEq, Repr

/-- `WIFEXITED` with `WEXITSTATUS`, else `WTERMSIG`. On a C `int` the mask `0x7f` is the remainder by 128, and the shift by
    8 bits rounds down. -/
def decodeStatus (status : Int) : WaitStatus :=
  if status % 128 = 0 then .exited (status / 256 % 256) else .signaled (status % 128)

theorem decodeStatus_signal {s : Int} (hlo : 1 ≤ s) (hhi : s ≤ 31) : decodeStatus (exitCodeOf (-s)) = .signaled s := by
  have hcode : exitCodeOf (-s) = s := by
    unfold exitCodeOf
    rw [if_neg (by omega), Int.neg_neg, Int.bmod_eq_of_le (by omega) (by omega)]
  have hmod : s % 128 = s := by omega
  unfold decodeStatus
  rw [hcode, hmod, if_neg (by omega)]

/-- The codes of `sys_exit` that are read back. -/
def ReadsBack (c : Int) : Prop := 0 ≤ c ∨ -c % 65536 = 0 ∨ -c % 65536 = 32896

theorem decodeStatus_pos (hpos : 0 < c) : decodeStatus (exitCodeOf c) = .exited (c % 256) := by
  unfold decodeStatus exitCodeOf
  rw [if_pos hpos]
  -- bits beyond the word are lost, but the next eight ones are the last eight of the code
  have hlost := Int.bmod_add_bdiv (c * 256) 4294967296
  rw [if_pos (by omega), WaitStatus.exited.injEq]
  omega

theorem decodeStatus_neg (n : Int) : decodeStatus n = .exited (-n % 256) ↔ n % 65536 = 0 ∨ n % 65536 = 32896 := by
  have hval : n / 256 % 256 = n % 65536 / 256 := by omega
  have hneg : -n % 256 = -(n % 65536) % 256 := by omega
  have hlow : n % 128 = n % 65536 % 128 := by omega
  have hlt : n % 65536 < 65536 := by omega
  have hnonneg : 0 ≤ n % 65536 := by omega
  unfold decodeStatus
  rw [hval, hneg, hlow]
  generalize n % 65536 = r at hlt hnonneg
  by_cases hzero : r % 128 = 0
  · rw [if_pos hzero, WaitStatus.exited.injEq]
    -- bit 7 of the code is part of neither the signal nor the value, but it shows in the negated code
    by_cases hbit : r % 256 = 0
    · omega
    · have hvalue : -r % 256 = 128 := by omega
      omega
  · rw [if_neg hzero]
    constructor
    · intro h
      cases h
    · omega

theorem decodeStatus_exit (hlo : -2147483648 ≤ c) : decodeStatus (exitCodeOf c) = .exited (c % 256) ↔ ReadsBack c := by
  unfold ReadsBack
  by_cases hpos : 0 < c
  · exact ⟨fun _ => .inl (by omega), fun _ => decodeStatus_pos hpos⟩
  by_cases hmin : c = -2147483648
  · subst hmin
    decide
  have hcode : exitCodeOf c = -c := by
    unfold exitCodeOf
    rw [if_neg hpos, Int.bmod_eq_of_le (by omega) (by omega)]
  have hneg := decodeStatus_neg (-c)
  rw [Int.neg_neg] at hneg
  rw [hcode, hneg]
  omega

variable {k k' now : Kernel} {p : Nat} {code : Int}

structure Exited (p : Nat) (code : Int) (k : Kernel) : Prop where
  kin : KinInv k
  lt : p < k.freePid
  ne_idle : p ≠ idle
  died : (k.proc p).died = true
  type : (k.proc p).type = .process
  exitCode : (k.proc p).exitCode = exitCodeOf code
  pending : ∀ num ∈ (k.proc p).signalQueue, num = 20

namespace Exited

variable (h : Exited p code k)
include h

theorem unlisted : p ∉ k.taskList := by
  intro hmem
  have hlive := (h.kin.task p hmem).2.2
  rw [h.died] at hlive
  cases hlive

theorem calm : fatalHead (k.proc p) = false := by
  unfold fatalHead
  cases hqueue : (k.proc p).signalQueue with
  | nil => rfl
  | cons num rest =>
    have hnum := h.pending num (hqueue ▸ mem_cons_self ..)
    simp [hnum]

theorem of_same (kin : KinInv k') (hlt : k.freePid ≤ k'.freePid)
    (hdied : (k'.proc p).died = (k.proc p).died) (htype : (k'.proc p).type = (k.proc p).type)
    (hcode : (k'.proc p).exitCode = (k.proc p).exitCode)
    (hpending : ∀ num ∈ (k'.proc p).signalQueue, num ∈ (k.proc p).signalQueue ∨ num = 20) : Exited p code k' where
  kin := kin
  lt := Nat.lt_of_lt_of_le h.lt hlt
  ne_idle := h.ne_idle
  died := hdied.trans h.died
  type := htype.trans h.type
  exitCode := hcode.trans h.exitCode
  pending num hnum := (hpending num hnum).elim (h.pending num) id

theorem touched (ht : Touched k k')
    (hpending : ∀ num ∈ (k'.proc p).signalQueue, num ∈ (k.proc p).signalQueue) : Exited p code k' :=
  h.of_same (h.kin.touched ht) (Nat.le_of_eq ht.freePid.symm) (ht.proc p).died (ht.proc p).type (ht.proc p).exitCode
    fun num hnum => .inl (hpending num hnum)

theorem killed {code' : Int} (hq : q ≠ p) (hk : Killed k q code' k') : Exited p code k' := by
  have hcore := hk.core p hq.symm
  refine h.of_same (h.kin.killed hk) (Nat.le_of_eq hk.freePid.symm) hcore.died hcore.type hcore.exitCode fun num hnum => ?_
  rw [hk.signalQueue, if_neg hq.symm] at hnum
  rcases mem_append.mp hnum with hnum | hnum
  · exact .inl hnum
  · split at hnum
    · exact .inr (mem_singleton.mp hnum)
    · cases hnum

theorem modified {f : Process → Process} (hf : SameKin (k.proc q) (f (k.proc q)))
    (hqueue : q = p → ∀ num ∈ (f (k.proc p)).signalQueue, num ∈ (k.proc p).signalQueue) : Exited p code (k.modify q f) := by
  refine h.touched (.modify k q f hf) fun num hnum => ?_
  rw [modify_proc] at hnum
  split at hnum
  next hpq => exact hqueue hpq.symm num hnum
  · exact hnum

theorem move (hm : Move k k') : Exited p code k' := by
  cases hm with
  | quota q => exact h.modified ⟨rfl, rfl, rfl, rfl, rfl, rfl⟩ fun _ num hnum => hnum
  | push | run => exact h.touched ⟨rfl, rfl, rfl, fun _ => .refl _⟩ fun num hnum => hnum
  | pick hpick =>
    obtain ⟨ring, rfl⟩ := pickTask_queue hpick
    exact h.touched ⟨rfl, rfl, rfl, fun _ => .refl _⟩ fun num hnum => hnum
  | take => exact h.touched (takeSignal_touched k _) (takeSignal_signal k _ p)
  | @fatal _ q _ rest _ hfatal hkill =>
    have hq : q ≠ p := by
      rintro rfl
      rw [h.calm] at hfatal
      cases hfatal
    have htaken : Exited p code (k.modify q fun r => { r with signalQueue := rest }) :=
      h.modified ⟨rfl, rfl, rfl, rfl, rfl, rfl⟩ fun hqp => absurd hqp hq
    exact htaken.killed hq hkill
  | orphan htype _ _ hkill =>
    refine h.killed ?_ hkill
    rintro rfl
    rw [h.type] at htype
    cases htype

theorem forceSwitch : Exited p code k.threadForceSwitch := by
  obtain ⟨quota, hproc⟩ := threadForceSwitch_proc k p
  refine h.touched (threadForceSwitch_touched k) fun num hnum => ?_
  rwa [hproc] at hnum

theorem sysKill {pid sig res : Int} (hk : k.sysKill pid sig = .ok (res, k')) : Exited p code k' := by
  rcases sysKill_ok hk with ⟨rfl, -⟩ | ⟨prc, -, hlive, -, ⟨-, hkill⟩ | ⟨-, -, -, hsend⟩⟩
  · exact h
  · refine h.killed ?_ hkill
    rintro rfl
    rw [h.died] at hlive
    cases hlive
  · have hne : prc ≠ p := by
      rintro rfl
      rw [h.died] at hlive
      cases hlive
    obtain ⟨k₁, k₂, hwake, hkill, rfl⟩ := sendSignal_ok hsend
    have hsent : Exited p code (k.enqueueSignal prc (sig % 4294967296).toNat) := by
      refine h.touched ⟨rfl, rfl, rfl, fun q => ?_⟩ fun num hnum => ?_
      · rw [enqueueSignal_proc]
        exact ⟨rfl, rfl, rfl, rfl, rfl, rfl⟩
      · rw [enqueueSignal_proc, if_neg hne.symm, append_nil] at hnum
        exact hnum
    have hk₁ : Exited p code k₁ := by
      rcases hwake with ⟨rfl, -⟩ | ⟨rfl, -⟩
      · exact hsent
      have hproc := woken_of_ne (k := k.enqueueSignal prc (sig % 4294967296).toNat) hne.symm
      refine hsent.of_same (hsent.kin.woken ?_) (Nat.le_refl _) ?_ ?_ ?_ fun num hnum => .inl ?_
      · rw [enqueueSignal_proc]
        exact hlive
      · rw [hproc]
      · rw [hproc]
      · rw [hproc]
      · rwa [hproc] at hnum
    have hk₂ : Exited p code k₂ := by
      rcases hkill with rfl | ⟨-, -, hkill⟩
      · exact hk₁
      · exact hk₁.killed hne hkill
    exact hk₂.forceSwitch

theorem reap {parent child : Nat} (kin : KinInv (k.reap parent child).2) : Exited p code (k.reap parent child).2 := by
  have hproc : (k.reap parent child).2.proc p =
      if p = parent then { k.proc p with childQueue := (k.proc p).childQueue.erase child } else k.proc p :=
    modify_proc k parent p fun p => { p with childQueue := p.childQueue.erase child }
  refine h.of_same kin (Nat.le_refl _) ?_ ?_ ?_ fun num hnum => .inl ?_
  · rw [hproc]
    split <;> rfl
  · rw [hproc]
    split <;> rfl
  · rw [hproc]
    split <;> rfl
  · rw [hproc] at hnum
    split at hnum <;> exact hnum

theorem step {c : Call} (hs : Step k c k') : Exited p code k' := by
  have kin := h.kin.step hs
  have hnew : p ≠ k.freePid := Nat.ne_of_lt h.lt
  cases hs with
  | create hc =>
    have hcreated := (threadCreate_ok hc).2
    have hproc := hcreated.proc p hnew
    refine h.of_same kin (hcreated.freePid ▸ Nat.le_succ _) ?_ ?_ ?_ fun num hnum => .inl ?_
    · rw [hproc]
    · rw [hproc]
    · rw [hproc]
    · rwa [hproc] at hnum
  | clone hc =>
    obtain ⟨-, k₁, aspace, hcreated, rfl⟩ := sysClone_ok hc
    have hproc : (k₁.cloned k.freePid aspace).proc p = _ :=
      (modify_of_ne _ _ _ _ hnew).trans (hcreated.proc p hnew)
    refine h.of_same kin ?_ ?_ ?_ ?_ fun num hnum => .inl ?_
    · exact Nat.le_trans (Nat.le_succ _) (Nat.le_of_eq hcreated.freePid.symm)
    · rw [hproc]
    · rw [hproc]
    · rw [hproc]
    · rwa [hproc] at hnum
  | schedule hsched => exact (threadSchedule_moves hsched).invariant (Exited p code) (fun h hm => h.move hm) h
  | kill hprc hkill =>
    refine h.killed ?_ (threadKillThread_ok hkill)
    rintro rfl
    exact hprc.elim h.unlisted h.ne_idle
  | sysKill hkill => exact h.sysKill hkill
  | nice => exact h.modified ⟨rfl, rfl, rfl, rfl, rfl, rfl⟩ fun _ num hnum => hnum
  | sigexit =>
    refine h.touched (sysSigexit_touched ..) fun num hnum => ?_
    obtain ⟨exited, quota, hproc⟩ := (sysSigexit_eq k _).2 p
    rw [hproc] at hnum
    split at hnum
    · exact mem_of_mem_sigexitQueue hnum
    · exact hnum
  | waitpid _ hpoll =>
    obtain ⟨-, -, hreap⟩ := waitpidPoll_some hpoll
    cases hreap
    exact h.reap kin
  | waitpidAny hany =>
    obtain ⟨-, -, hreap⟩ := waitpidAny_some hany
    cases hreap
    exact h.reap kin

end Exited

/-- The kernel goes on by a call, or by a part of one of `thread_schedule`. -/
inductive Goes : Kernel → Kernel → Prop
  | call {k k' : Kernel} {c : Call} (h : Step k c k') : Goes k k'
  | move {k k' : Kernel} (h : Move k k') : Goes k k'

/-- What `sys_waitpid` stores as the status of the child, waiting for it or for any child. -/
def Stores (now : Kernel) (child : Nat) (status : Int) : Prop :=
  ∃ parent k', now.waitpidPoll parent child = some (status, k') ∨ now.waitpidAny parent = some (child, status, k')

theorem Stores.eq {status : Int} (h : Stores now p status) : status = (now.proc p).exitCode := by
  obtain ⟨parent, k', hpoll | hany⟩ := h
  · obtain ⟨-, -, hreap⟩ := waitpidPoll_some hpoll
    cases hreap
    rfl
  · obtain ⟨-, -, hreap⟩ := waitpidAny_some hany
    cases hreap
    rfl

theorem KinInv.goes (inv : KinInv k) (h : Goes k k') : KinInv k' := by
  cases h with
  | call h => exact inv.step h
  | move h => exact inv.changes h.changes

theorem Exited.goes (h : Exited p code k) (hg : Goes k k') : Exited p code k' := by
  cases hg with
  | call hs => exact h.step hs
  | move hm => exact h.move hm

theorem KinInv.exited {reschedule : Bool} (inv : KinInv k) (hmem : p ∈ k.taskList) (htype : (k.proc p).type = .process)
    (hkill : k.threadKillThread p code reschedule = .ok k') : Exited p code k' := by
  have hk := threadKillThread_ok hkill
  obtain ⟨hlt, hne, -⟩ := inv.task p hmem
  refine ⟨inv.killed hk, hk.freePid ▸ hlt, hne, hk.dead.died, hk.dead.type.trans htype, hk.dead.exitCode, fun num hnum => ?_⟩
  rw [hk.signalQueue, if_pos rfl] at hnum
  split at hnum
  · exact mem_singleton.mp hnum
  · cases hnum

/-- The status of a process that was killed with a code tells its signal, and it tells the code of `sys_exit` if that is not
    negative, or by chance. -/
theorem exit_status_iff {k₀ : Kernel} {reschedule : Bool} {status : Int} (hinit : threadInit = .ok k₀)
    (hbefore : Relation.ReflTransGen Goes k₀ k) (hmem : p ∈ k.taskList) (htype : (k.proc p).type = .process)
    (hkill : k.threadKillThread p code reschedule = .ok k') (hafter : Relation.ReflTransGen Goes k' now)
    (hstores : Stores now p status) (hlo : -2147483648 ≤ code) :
    (decodeStatus status = .exited (code % 256) ↔ ReadsBack code) ∧
      ∀ s, 1 ≤ s → s ≤ 31 → code = -s → decodeStatus status = .signaled s := by
  have inv : KinInv k :=
    invariant_of_reflTransGen KinInv (fun inv h => inv.goes h) (threadInit_ok hinit).kinInv hbefore
  have hexited : Exited p code now :=
    invariant_of_reflTransGen (Exited p code) (fun h hg => h.goes hg) (inv.exited hmem htype hkill) hafter
  rw [hstores.eq, hexited.exitCode]
  refine ⟨decodeStatus_exit hlo, fun s hlo hhi hcode => ?_⟩
  rw [hcode]
  exact decodeStatus_signal hlo hhi

theorem goes_of_run {calls : List Call} (h : Run Step k calls k') : Relation.ReflTransGen Goes k k' := by
  induction h with
  | refl => exact .refl
  | snoc _ hs ih => exact ih.tail (.call hs)

def killTwo (code : Int) : Option (Kernel × Kernel) :=
  (threadInit.toOption.bind (Run.execAll exec (fun _ _ _ => true) · twoTasks)).bind fun k =>
    (k.threadKillThread k.caller code true).toOption.map fun k' => (k, k')

theorem killTwo_ok (h : killTwo code = some (k, k')) :
    ∃ k₀, threadInit = .ok k₀ ∧ Relation.ReflTransGen Goes k₀ k ∧ k.threadKillThread k.caller code true = .ok k' := by
  obtain ⟨k₁, hrun, hkill⟩ := bind_eq_some_iff.mp h
  obtain ⟨k₀, hinit, hrun⟩ := bind_eq_some_iff.mp hrun
  obtain ⟨k₂, hkill, heq⟩ := map_eq_some_iff.mp hkill
  cases heq
  exact ⟨k₀, toOption_eq_some hinit, goes_of_run ((Run.of_execAll step_of_exec hrun).mono And.left), toOption_eq_some hkill⟩

/-- `sys_exit(7)`. -/
theorem exit_status_iff_seven :
    ∃ k₀ k k' status, threadInit = .ok k₀ ∧ Relation.ReflTransGen Goes k₀ k ∧ 2 ∈ k.taskList ∧ k.sysExit 7 = .ok k' ∧
      Stores k' 2 status ∧ decodeStatus status = .exited 7 := by
  have heval : (killTwo 7).map (fun r => decide (r.1.caller = 2 ∧ 2 ∈ r.1.taskList ∧ (r.1.proc 2).type = .process) &&
      ((r.2.waitpidPoll 1 2).map Prod.fst == some 1792)) = some true := by decide +kernel
  obtain ⟨⟨k, k'⟩, hkilled, hcheck⟩ := map_eq_some_iff.mp heval
  obtain ⟨hstate, hstatus⟩ := Bool.and_eq_true_iff.mp hcheck
  obtain ⟨hcaller, hmem, htype⟩ := of_decide_eq_true hstate
  obtain ⟨⟨status, k''⟩, hpoll, -⟩ := map_eq_some_iff.mp (eq_of_beq hstatus)
  obtain ⟨k₀, hinit, hbefore, hkill⟩ := killTwo_ok hkilled
  have hstores : Stores k' 2 status := ⟨1, k'', .inl hpoll⟩
  refine ⟨k₀, k, k', status, hinit, hbefore, hmem, hkill, hstores, ?_⟩
  rw [hcaller] at hkill
  exact (exit_status_iff hinit hbefore hmem htype hkill .refl hstores (by decide)).1.mpr (.inl (by decide))

/-- After `sys_exit(-1)` the status is that of a process killed by signal 1. -/
theorem exit_minus_one_signaled :
    ∃ k₀ k k', threadInit = .ok k₀ ∧ Relation.ReflTransGen Goes k₀ k ∧ k.caller = 2 ∧ k.sysExit (-1) = .ok k' ∧
      Stores k' 2 1 ∧ decodeStatus 1 = .signaled 1 ∧ decodeStatus 1 ≠ .exited (-1 % 256) := by
  have heval : (killTwo (-1)).map (fun r => decide (r.1.caller = 2) && ((r.2.waitpidPoll 1 2).map Prod.fst == some 1)) =
      some true := by decide +kernel
  obtain ⟨⟨k, k'⟩, hkilled, hcheck⟩ := map_eq_some_iff.mp heval
  obtain ⟨hcaller, hstatus⟩ := Bool.and_eq_true_iff.mp hcheck
  obtain ⟨⟨status, k''⟩, hpoll, hone⟩ := map_eq_some_iff.mp (eq_of_beq hstatus)
  obtain ⟨k₀, hinit, hbefore, hkill⟩ := killTwo_ok hkilled
  cases hone
  exact ⟨k₀, k, k', hinit, hbefore, of_decide_eq_true hcaller, hkill, ⟨1, k'', .inl hpoll⟩, by decide, by decide⟩

end Kernel
end HelinKern
