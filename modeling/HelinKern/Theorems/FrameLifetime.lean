import HelinKern.Machine
import HelinKern.Theorems.CopyOnWrite
import HelinKern.Theorems.Syscall

/-! Which frames `arch_mmu_destroyAspace` frees over a run of forks, stores, `sbrk`, `sys_exec` and deaths: none that
    a live process still maps, and none twice. -/

namespace HelinKern
namespace Machine
open Mmu Lts FrameEvent Function List Option

variable {brk : Nat → Brk} {b : Brk} {q pid space : Nat} {size code : Int} {reschedule : Bool}
variable {role : Nat → Role} {m m' : Mmu} {live : List Nat} {pd p f vaddr : Nat} {all : Bool} {s t : Machine} {op : SpaceOp}

/-- What every operation keeps. -/
structure Ok (s : Machine) : Prop where
  inv : ∃ role, Inv role s.mmu s.live
  idleDir : s.dir idle = some kernelPg
  below : ∀ p ∈ idle :: s.kernel.taskList, p < s.kernel.freePid
  brk : ∀ p pd, s.userDir p = some pd → BrkOk (s.brk p).brkNextUnallocatedPageBegin

/-! ### Live directories -/

theorem mem_live (hp : p ∈ idle :: s.kernel.taskList) (hpd : s.dir p = some pd) : pd ∈ s.live :=
  mem_filterMap.mpr ⟨p, hp, hpd⟩

theorem userDir_eq_some (h : s.userDir p = some pd) :
    p ∈ s.kernel.taskList ∧ s.dir p = some pd ∧ pd ≠ kernelPg := by
  unfold userDir at h
  split at h
  next hp =>
    obtain ⟨hdir, hne⟩ := filter_eq_some_iff.mp h
    exact ⟨hp, hdir, of_decide_eq_true hne⟩
  · cases h

theorem userDir_live (h : s.userDir p = some pd) : pd ∈ s.live ∧ pd ≠ kernelPg := by
  obtain ⟨hp, hdir, hne⟩ := userDir_eq_some h
  exact ⟨mem_live (mem_cons_of_mem _ hp) hdir, hne⟩

theorem Ok.kernelPg_live (h : s.Ok) : kernelPg ∈ s.live := mem_live (mem_cons_self ..) h.idleDir

theorem live_subset (hdir : ∀ p ∈ idle :: t.kernel.taskList, t.dir p = s.dir p)
    (htasks : ∀ p ∈ t.kernel.taskList, p ∈ s.kernel.taskList) : ∀ pd ∈ t.live, pd ∈ s.live := by
  intro pd hpd
  obtain ⟨p, hp, hpd⟩ := mem_filterMap.mp hpd
  rw [hdir p hp] at hpd
  rcases mem_cons.mp hp with rfl | hp
  · exact mem_live (mem_cons_self ..) hpd
  · exact mem_live (mem_cons_of_mem _ (htasks p hp)) hpd

theorem Ok.of_memory (h : s.Ok) (hdir : ∀ p ∈ idle :: t.kernel.taskList, t.dir p = s.dir p)
    (htasks : ∀ p ∈ t.kernel.taskList, p ∈ s.kernel.taskList) (hpid : t.kernel.freePid = s.kernel.freePid)
    (hinv : ∃ role, Inv role t.mmu s.live)
    (hbrk : ∀ p pd, s.userDir p = some pd → BrkOk (t.brk p).brkNextUnallocatedPageBegin) : t.Ok := by
  obtain ⟨role, hinv⟩ := hinv
  have hidle : t.dir idle = some kernelPg := (hdir idle (mem_cons_self ..)).trans h.idleDir
  refine ⟨⟨role, hinv.mono (live_subset hdir htasks) (mem_live (mem_cons_self ..) hidle)⟩, hidle, ?_, ?_⟩
  · intro p hp
    rw [hpid]
    exact h.below p ((mem_cons.mp hp).elim (fun h => h ▸ mem_cons_self ..) fun hp =>
      mem_cons_of_mem _ (htasks p hp))
  · intro p pd hpd
    obtain ⟨hp, hd, hne⟩ := userDir_eq_some hpd
    refine hbrk p pd ?_
    unfold userDir
    rw [if_pos (htasks p hp), ← hdir p (mem_cons_of_mem _ hp), hd]
    exact filter_eq_some_iff.mpr ⟨rfl, decide_eq_true hne⟩

/-! ### Destroying an address space -/

theorem exclusive_of_unshared (h : Inv role m live) (hpd : pd ∈ live)
    (hun : all → m.Unshared live pd) : Exclusive role m live pd all := by
  intro t i j hi ht hj hp ho hall t' ht' hne hp' hframe
  obtain ⟨huser, hpt, hft⟩ := h.dirs.table t pd hpd i ht
  cases hw : (m.entry t j).has pgWrite with
  | true => exact hne (h.pages.cow t t' i j (.inr ⟨pd, hpd, ht⟩) ht' hj ⟨hp, ho, hw⟩ hp' hframe)
  | false =>
    rcases ht' with hk | ⟨q, hq, ht'⟩
    · have := (h.dirs.kern t' i hk).1
      omega
    obtain ⟨-, hpq, hfq⟩ := h.dirs.table t' q hq i ht'
    have hqpd : q ≠ pd := by
      rintro rfl
      exact hne (hfq.symm.trans hft)
    exact hun (hall.resolve_right (by rw [hw]; exact Bool.false_ne_true)) i j _ huser.1 hi hj
      (pte_eq_some.mpr ⟨hpt, by rw [hft]; exact hp, by rw [hft]⟩) ho hw q hq hqpd _
      (pte_eq_some.mpr ⟨hpq, by rw [hfq]; exact hp', by rw [hfq]⟩) hframe

theorem destroys_live (h : s.destroys op = some (pd, all)) (hop : ∀ p code r, op = .kill p code r → p ∈ s.kernel.taskList) :
    pd ∈ s.live := by
  unfold destroys at h
  split at h
  · obtain ⟨_, hdir, heq⟩ := map_eq_some_iff.mp h
    cases heq
    exact (userDir_live hdir).1
  · split at h
    · cases h
    · obtain ⟨_, hdir, heq⟩ := map_eq_some_iff.mp h
      cases heq
      exact mem_live (mem_cons_of_mem _ (hop _ _ _ rfl)) hdir
  · cases h

theorem destroy_of_destroys (h : s.destroys op = some (pd, all)) : s.destroy op = s.mmu.archMmuDestroyAspace pd all := by
  unfold destroy
  rw [h]

theorem Ok.destroy (h : s.Ok) (hd : s.destroys op = some (pd, all)) (hpd : pd ∈ s.live) (hgood : s.Good op) :
    ∃ role, DestroyInv s.mmu s.live pd all role (s.destroy op) := by
  obtain ⟨role, hinv⟩ := h.inv
  have hex : Exclusive role s.mmu s.live pd all :=
    exclusive_of_unshared hinv hpd fun hall => hgood pd (by rw [hd, hall])
  rw [destroy_of_destroys hd]
  exact hinv.destroy hpd hex

variable {v : BitVec 8}

theorem inv_userWrite (h : Inv role m live) (hpd : pd ∈ live) (hi : User (pageDirectoryIndex vaddr))
    (hwrite : m.userWrite pd vaddr v = some m') : Inv role m' live := by
  obtain ⟨-, e, he, -, rfl⟩ := Cow.userWrite_pte h hpd hi hwrite
  have hdata := (h.pte_ok hpd hi (Nat.mod_lt _ (by decide)) he).not_structural
  refine h.write fun a ha => update_of_ne ?_ _ _
  rintro rfl
  rw [show (4096 * e.frame + vaddr % 4096) / 4096 = e.frame by omega, hdata] at ha
  cases ha

theorem inv_userStore {parent : Option Nat} (h : Inv role m live) (hpd : pd ∈ live)
    (hi : User (pageDirectoryIndex vaddr)) (hstore : m.userStore pd parent vaddr v = some m')
    (hlog : .missing ∉ m'.log) : ∃ role', Inv role' m' live := by
  rcases Cow.userStore_cases h hpd hi hstore hlog with hwrite | ⟨-, m₁, e, he, hcow, hlog₁, hretry⟩
  · exact ⟨role, inv_userWrite h hpd hi hwrite⟩
  · obtain ⟨hp, hpe, -⟩ := pte_eq_some.mp he
    obtain ⟨f, -, hinv⟩ := h.handleCOW hpd hi hp hpe hcow hlog₁
    exact ⟨_, inv_userWrite hinv hpd hi hretry⟩

theorem Ok.store (h : s.Ok) (hexec : s.exec (.store p vaddr v) = some t) (hlog : .missing ∉ t.mmu.log) : t.Ok := by
  unfold exec at hexec
  dsimp only at hexec
  split at hexec
  next hop =>
    obtain ⟨pd, hdir, hexec⟩ := bind_eq_some_iff.mp hexec
    obtain ⟨m, hstore, rfl⟩ := map_eq_some_iff.mp hexec
    obtain ⟨role, hinv⟩ := h.inv
    exact h.of_memory (fun _ _ => rfl) (fun _ => id) rfl (inv_userStore hinv
      (mem_live (mem_cons_of_mem _ hop.1) hdir) (Cow.user_of_range hop.2.1 hop.2.2) hstore hlog) h.brk
  · cases hexec

theorem brk_update (h : BrkOk (brk q).brkNextUnallocatedPageBegin) (hb : BrkOk b.brkNextUnallocatedPageBegin) :
    BrkOk (update brk p b q).brkNextUnallocatedPageBegin := by
  by_cases hq : q = p
  · rw [hq, update_self]
    exact hb
  · rwa [update_of_ne hq]

theorem Ok.sbrk {nBytes : Int} (h : s.Ok) (hexec : s.exec (.sbrk p nBytes) = some t) (hlog : .missing ∉ t.mmu.log) :
    t.Ok := by
  obtain ⟨pd, hpd, rfl⟩ := map_eq_some_iff.mp hexec
  obtain ⟨hlive, hne⟩ := userDir_live hpd
  obtain ⟨role, hinv⟩ := h.inv
  obtain ⟨hb, hinv'⟩ := hinv.sbrk hlive hne (h.brk p pd hpd) hlog
  exact h.of_memory (fun _ _ => rfl) (fun _ => id) rfl hinv' fun q qd hq => brk_update (h.brk q qd hq) hb

theorem dir_modify (k : Kernel) (f : Process → Process) (hf : ∀ q, (f q).aspace = q.aspace) (m : Mmu)
    (brk : Nat → Brk) (q : Nat) :
    (⟨k.modify p f, m, brk⟩ : Machine).dir q = (⟨k, m, brk⟩ : Machine).dir q := by
  unfold dir
  rw [Kernel.modify_proc]
  split
  · rw [hf]
  · rfl

theorem destroys_exec (h : s.userDir p = some pd) : s.destroys (.exec p size) = some (pd, false) := by
  show (s.userDir p).map _ = _
  rw [h]
  rfl

theorem Ok.exec (h : s.Ok) (hexec : s.exec (.exec p size) = some t) (hlog : .missing ∉ t.mmu.log) :
    t.Ok := by
  obtain ⟨pd, hpd, rfl⟩ := map_eq_some_iff.mp hexec
  obtain ⟨hlive, hne⟩ := userDir_live hpd
  have hd : s.destroys (.exec p size) = some (pd, false) := destroys_exec hpd
  obtain ⟨role, hinv⟩ := h.destroy hd hlive fun _ hall => by rw [hd] at hall; cases hall
  obtain ⟨hb, hinv'⟩ := hinv.inv.sbrk hlive hne brkOk_userOffset hlog
  refine h.of_memory (fun q _ => ?_) (fun _ => id) rfl hinv' fun q qd hq => brk_update (h.brk q qd hq) hb
  exact dir_modify s.kernel (fun q => { q with state := .running, substate := .exec }) (fun _ => rfl) _ _ q

theorem kernel_of_toOption {α : Type} {x : Except Fault α} {a : α} (h : x.toOption = some a) : x = .ok a := by
  cases x with
  | error e => cases h
  | ok b => exact congrArg Except.ok (some.inj h)

theorem kill_tasks (hexec : s.exec (.kill p code reschedule) = some t) :
    p ∈ s.kernel.taskList ∧ t.mmu = s.destroy (.kill p code reschedule) ∧ t.brk = s.brk ∧ (∀ q, t.dir q = s.dir q) ∧
      (∀ q ∈ t.kernel.taskList, q ∈ s.kernel.taskList) ∧ t.kernel.freePid = s.kernel.freePid := by
  unfold Machine.exec at hexec
  dsimp only at hexec
  split at hexec
  next hp =>
    obtain ⟨k, hkill, rfl⟩ := map_eq_some_iff.mp hexec
    have hkilled := Kernel.threadKillThread_ok (kernel_of_toOption hkill)
    refine ⟨hp, rfl, rfl, fun q => congrArg (Option.map (· / 4096)) ?_, fun q hq => ?_, hkilled.freePid⟩
    · by_cases hq : q = p
      · rw [hq]
        exact hkilled.dead.aspace
      · exact (hkilled.core q hq).aspace
    · have hsub : k.taskList ⊆ s.kernel.taskList := by
        rw [hkilled.taskList]
        split
        · exact List.Subset.trans erase_subset erase_subset
        · exact erase_subset
      exact hsub hq
  · cases hexec

theorem Ok.kill (h : s.Ok) (hgood : s.Good (.kill p code reschedule))
    (hexec : s.exec (.kill p code reschedule) = some t) : t.Ok := by
  obtain ⟨hp, hmmu, hbrk, hdir, htasks, hpid⟩ := kill_tasks hexec
  have hinv : ∃ role, Inv role t.mmu s.live := by
    rw [hmmu]
    rcases hd : s.destroys (.kill p code reschedule) with _ | ⟨pd, all⟩
    · unfold Machine.destroy
      rw [hd]
      exact h.inv
    · have hpd := destroys_live hd fun _ _ _ heq => by cases heq; exact hp
      obtain ⟨role, hinv⟩ := h.destroy hd hpd hgood
      exact ⟨role, hinv.inv⟩
  exact h.of_memory (fun q _ => hdir q) htasks hpid hinv (by rw [hbrk]; exact h.brk)

structure Spawned (s : Machine) (pid space : Nat) (t : Machine) : Prop where
  freePid : t.kernel.freePid = pid + 1
  pid_eq : pid = s.kernel.freePid
  taskList : t.kernel.taskList = s.kernel.taskList ++ [pid]
  new : t.dir pid = some space
  old : ∀ q ≠ pid, t.dir q = s.dir q
  brk : t.brk = s.brk
  not_live : space ∉ s.live
  inv : .missing ∉ t.mmu.log → ∃ role, Inv role t.mmu (space :: s.live)

theorem Ok.spawn {orig : Nat} {f : Process → Process} (h : s.Ok) (hf : ∀ q, (f q).aspace = q.aspace)
    (horig : orig ∈ s.live) (hspawn : s.spawn orig f = some (pid, space, t)) : Spawned s pid space t := by
  obtain ⟨⟨pid', k⟩, hcreate, hspawn⟩ := bind_eq_some_iff.mp hspawn
  obtain ⟨⟨space', m⟩, hnew, heq⟩ := map_eq_some_iff.mp hspawn
  cases heq
  obtain ⟨rfl, hcreated⟩ := Kernel.threadCreate_ok (kernel_of_toOption hcreate)
  obtain ⟨role, hinv⟩ := h.inv
  obtain ⟨hinv', haspace⟩ := hinv.newAspace hnew
  refine ⟨congrArg (· + 0) hcreated.freePid, rfl, hcreated.taskList, ?_, ?_, rfl, haspace.not_live, ?_⟩
  · unfold dir
    rw [Kernel.modify_self, hf]
    exact congrArg some (Nat.mul_div_cancel_left space (by decide))
  · intro q hq
    unfold dir
    rw [Kernel.modify_of_ne _ _ _ _ hq, hcreated.proc q hq]
  · intro hlog
    dsimp only at hlog ⊢
    obtain ⟨role', hinv'', -⟩ := (hinv'.duplicate (mem_cons_of_mem _ horig) (mem_cons_self ..)
      (haspace.ne horig) (haspace.ne h.kernelPg_live).symm hlog).inv
    exact ⟨role', hinv''⟩

namespace Spawned

variable {pid space : Nat}

theorem dir_eq (hs : Spawned s pid space t) (h : s.Ok) (hq : q ∈ idle :: s.kernel.taskList) : t.dir q = s.dir q := by
  have hpid := hs.pid_eq
  exact hs.old q (by have := h.below q hq; omega)

theorem mem_tasks (hs : Spawned s pid space t) (hq : q ∈ idle :: t.kernel.taskList) :
    q ∈ idle :: s.kernel.taskList ∨ q = pid := by
  rw [hs.taskList] at hq
  exact (mem_append.mp hq).imp id mem_singleton.mp

theorem live_subset (hs : Spawned s pid space t) (h : s.Ok) : ∀ qd ∈ t.live, qd ∈ space :: s.live := by
  intro qd hqd
  obtain ⟨q, hq, hqd⟩ := mem_filterMap.mp hqd
  rcases hs.mem_tasks hq with hq | rfl
  · exact mem_cons_of_mem _ (mem_live hq ((hs.dir_eq h hq).symm.trans hqd))
  · exact mem_cons.mpr (.inl (some.inj (hqd.symm.trans hs.new)))

end Spawned

theorem Spawned.ok {u : Machine} (hs : Spawned s pid space u) (h : s.Ok) (hinv : ∃ role, Inv role m (space :: s.live))
    (hb : BrkOk b.brkNextUnallocatedPageBegin) :
    Ok { u with mmu := m, brk := update u.brk pid b } := by
  obtain ⟨role, hinv⟩ := hinv
  have hpid := hs.pid_eq
  have hidle : u.dir idle = some kernelPg := (hs.dir_eq h (mem_cons_self ..)).trans h.idleDir
  refine ⟨⟨role, hinv.mono (hs.live_subset h) (mem_live (mem_cons_self ..) hidle)⟩, hidle, ?_, ?_⟩
  · intro q hq
    rw [hs.freePid]
    rcases hs.mem_tasks hq with hq | rfl
    · have := h.below q hq
      omega
    · exact Nat.lt_succ_self q
  · intro q qd hqd
    obtain ⟨hq, hd, hne⟩ := userDir_eq_some hqd
    dsimp only
    by_cases hqp : q = pid
    · rw [hqp, update_self]
      exact hb
    rw [update_of_ne hqp, hs.brk]
    have hqs := mem_append.mp (hs.taskList ▸ hq)
    have hqs := hqs.resolve_right fun h => hqp (mem_singleton.mp h)
    refine h.brk q qd ?_
    unfold userDir
    rw [if_pos hqs, ← hs.dir_eq h (mem_cons_of_mem _ hqs)]
    exact filter_eq_some_iff.mpr ⟨hd, decide_eq_true hne⟩

theorem Ok.start (h : s.Ok) (hexec : s.exec (.start size) = some t) (hlog : .missing ∉ t.mmu.log) :
    t.Ok := by
  obtain ⟨⟨pid, space, u⟩, hspawn, rfl⟩ := map_eq_some_iff.mp hexec
  have hs := h.spawn (f := fun p => { p with state := .running, substate := .exec }) (fun _ => rfl) h.kernelPg_live hspawn
  obtain ⟨role, hinv⟩ := hs.inv ((sbrk_grows ..).not_missing hlog)
  have hne : space ≠ kernelPg := fun heq => hs.not_live (heq ▸ h.kernelPg_live)
  obtain ⟨hb, hinv'⟩ := hinv.sbrk (mem_cons_self ..) hne brkOk_userOffset hlog
  exact hs.ok h hinv' hb

theorem Ok.fork (h : s.Ok) (hexec : s.exec .fork = some t) (hlog : .missing ∉ t.mmu.log) : t.Ok := by
  obtain ⟨orig, horig, hexec⟩ := bind_eq_some_iff.mp hexec
  obtain ⟨⟨pid, space, u⟩, hspawn, rfl⟩ := map_eq_some_iff.mp hexec
  have hs := h.spawn (f := fun p => { p with state := .running, substate := .fork, parent := some s.kernel.caller })
    (fun _ => rfl) (userDir_live horig).1 hspawn
  have hb := h.brk _ _ horig
  rw [← hs.brk] at hb
  exact hs.ok h (hs.inv hlog) hb

theorem Ok.step (h : s.Ok) (hgood : s.Good op) (hstep : s.Step op t) : t.Ok := by
  obtain ⟨hexec, hlog⟩ := hstep
  cases op with
  | start size => exact h.start hexec hlog
  | switch p =>
    unfold Machine.exec at hexec
    dsimp only at hexec
    split at hexec
    · cases hexec
      exact h.of_memory (fun _ _ => rfl) (fun _ => id) rfl h.inv h.brk
    · cases hexec
  | fork => exact h.fork hexec hlog
  | store p vaddr v => exact h.store hexec hlog
  | sbrk p nBytes => exact h.sbrk hexec hlog
  | exec p size => exact h.exec hexec hlog
  | kill p code reschedule => exact h.kill hgood hexec

theorem dir_booted {k : Kernel} (hk : k.Booted) : dir ⟨k, m, brk⟩ idle = some kernelPg := by
  unfold dir
  rw [hk.proc_idle]
  rfl

theorem live_booted {k : Kernel} (hk : k.Booted) : Machine.live ⟨k, m, brk⟩ = [kernelPg] := by
  unfold live
  rw [hk.taskList, filterMap_cons, dir_booted hk]
  rfl

theorem Ok.boot {k : Kernel} (hk : k.Booted) (hinv : Inv role m [kernelPg]) : Ok ⟨k, m, brk⟩ := by
  refine ⟨⟨role, by rw [live_booted hk]; exact hinv⟩, dir_booted hk, ?_, ?_⟩
  · intro p hp
    rw [hk.taskList] at hp
    rw [mem_singleton.mp hp, hk.freePid]
    exact Nat.one_pos
  · intro p pd hpd
    have hp := (userDir_eq_some hpd).1
    rw [hk.taskList] at hp
    cases hp

/-! ### A process that executed a program and then forked -/

def boot : Option Machine := Kernel.threadInit.toOption.map fun k => ⟨k, small.archMmuInit, fun _ => ⟨0, 0⟩⟩

end Machine
end HelinKern
