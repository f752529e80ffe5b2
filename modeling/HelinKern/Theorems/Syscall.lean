import HelinKern.Theorems.Schedule

/-! What the system calls on processes and signals do to a kernel state. -/

namespace HelinKern
variable {sig res status : Int} {parent child : Nat}

namespace Kernel
open RingBuffer List Option

variable {k k' : Kernel} {prc : Nat} {c : Call} {pid : Int}

theorem threadGetThread_some (h : k.threadGetThread pid = some prc) : prc ∈ k.taskList ∨ prc = idle := by
  unfold threadGetThread at h
  split at h
  · cases h
  split at h
  next hmem =>
    cases h
    exact .inl hmem
  · cases h
    exact .inr rfl

theorem threadForceSwitch_same (k : Kernel) : OnlyProc k k.threadForceSwitch := by
  unfold threadForceSwitch
  split
  · exact .refl _
  · exact .modify ..

theorem threadForceSwitch_proc (k : Kernel) (q : Nat) : ∃ quota, k.threadForceSwitch.proc q = { k.proc q with quota } := by
  unfold threadForceSwitch
  split
  · exact ⟨_, rfl⟩
  · exact modify_quota ..

theorem enqueueSignal_proc (k : Kernel) (p num q : Nat) :
    (k.enqueueSignal p num).proc q =
      { k.proc q with signalQueue := (k.proc q).signalQueue ++ if q = p then [num] else [] } := by
  refine (modify_proc k p q fun q => { q with signalQueue := q.signalQueue ++ [num] }).trans ?_
  split
  · rfl
  · rw [append_nil]

theorem enqueueSignal_life (k : Kernel) (p num q : Nat) : SameLife (k.proc q) ((k.enqueueSignal p num).proc q) := by
  rw [enqueueSignal_proc]
  exact ⟨rfl, rfl, rfl, rfl⟩

theorem sendSignal_ok (h : k.sendSignal prc sig = .ok k') :
    ∃ k₁ k₂, ((k₁ = k.enqueueSignal prc (sig % 4294967296).toNat ∧ ((k.proc prc).state = .running ∨ (k.proc prc).state = .creating)) ∨
        (k₁ = (k.enqueueSignal prc (sig % 4294967296).toNat).woken prc ∧ (k.proc prc).state ≠ .running ∧ (k.proc prc).state ≠ .creating)) ∧
      (k₂ = k₁ ∨ (sig = 1 ∧ ((k.proc prc).signalHandlers 1).handler = 0 ∧ Killed k₁ prc (-1) k₂)) ∧
      k' = k₂.threadForceSwitch := by
  obtain ⟨k₁, hwake, h⟩ := bind_ok h
  obtain ⟨k₂, hkill, h⟩ := bind_ok h
  simp only [pure, Except.pure, Except.ok.injEq] at h
  have hstate : ((k.enqueueSignal prc (sig % 4294967296).toNat).proc prc).state = (k.proc prc).state := by
    rw [enqueueSignal_proc]
  unfold wake at hwake
  unfold defaultAction at hkill
  have hhandler : (k₁.proc prc).signalHandlers = (k.proc prc).signalHandlers := by
    split at hwake
    · obtain rfl := pushPrc_ok hwake
      simp [enqueueSignal_proc]
    · cases hwake
      rw [enqueueSignal_proc]
  refine ⟨k₁, k₂, ?_, ?_, h.symm⟩
  · split at hwake
    next hstill =>
      exact .inr ⟨(pushPrc_ok hwake).symm, hstate ▸ hstill⟩
    next hruns =>
      cases hwake
      refine .inl ⟨rfl, ?_⟩
      rw [← hstate]
      by_contra hno
      exact hruns (not_or.mp hno)
  · split at hkill
    next hfatal =>
      rw [hfatal.1] at hkill
      exact .inr ⟨hfatal.1, hhandler ▸ hfatal.2, threadKillThread_ok hkill⟩
    · cases hkill
      exact .inl rfl

theorem sysKill_ok (h : k.sysKill pid sig = .ok (res, k')) : (k' = k ∧ res ≠ 0) ∨
      ∃ prc, k.threadGetThread pid = some prc ∧ (k.proc prc).died = false ∧ res = 0 ∧
        (((sig = 9 ∨ sig = 0) ∧ Killed k prc (-9) k') ∨
          (sig ≠ 9 ∧ sig ≠ 0 ∧ sig < 32 ∧ k.sendSignal prc sig = .ok k')) := by
  unfold sysKill at h
  cases hprc : k.threadGetThread pid with
  | none =>
    simp only [hprc] at h
    split_ifs at h
    all_goals
      cases h
      exact .inl ⟨rfl, by decide⟩
  | some prc =>
    simp only [hprc] at h
    split_ifs at h with hkill hguard hlarge hguard
    · cases h
      exact .inl ⟨rfl, by decide⟩
    · obtain ⟨k₁, hk, h⟩ := bind_ok h
      obtain ⟨rfl, rfl⟩ := h
      simp only [not_or, Bool.not_eq_true] at hguard
      exact .inr ⟨prc, rfl, hguard.2.1, rfl, .inl ⟨hkill, threadKillThread_ok hk⟩⟩
    · cases h
      exact .inl ⟨rfl, by decide⟩
    · cases h
      exact .inl ⟨rfl, by decide⟩
    · obtain ⟨k₁, hsend, h⟩ := bind_ok h
      obtain ⟨rfl, rfl⟩ := h
      simp only [not_or, Bool.not_eq_true] at hguard hkill
      exact .inr ⟨prc, rfl, hguard.1, rfl, .inr ⟨hkill.1, hkill.2, Int.not_le.mp hlarge, hsend⟩⟩

theorem waitpidChild_some (h : k.waitpidChild parent pid = some child) :
    k.threadGetThread pid = some child ∧ (k.proc child).parent = some parent := by
  unfold waitpidChild at h
  cases hget : k.threadGetThread pid with
  | none =>
    rw [hget] at h
    cases h
  | some c =>
    rw [hget] at h
    simp only at h
    split at h
    next hparent =>
      cases h
      exact ⟨rfl, hparent⟩
    · cases h

theorem waitpidPoll_some (h : k.waitpidPoll parent child = some (status, k')) :
    (k.proc child).started ∧ (k.proc child).died ∧ k.reap parent child = (status, k') := by
  unfold waitpidPoll at h
  split at h
  next hc => exact ⟨hc.1, hc.2.1, some.inj h⟩
  · cases h

theorem waitpidAny_some (h : k.waitpidAny parent = some (child, status, k')) :
    child ∈ (k.proc parent).childQueue ∧ ((k.proc child).died ∨ (k.proc child).state = .zombie) ∧
      k.reap parent child = (status, k') := by
  obtain ⟨c, hfind, hc⟩ := map_eq_some_iff.mp h
  simp only [Prod.mk.injEq] at hc
  obtain ⟨rfl, hreap⟩ := hc
  have hdead := find?_some hfind
  exact ⟨mem_of_find?_eq_some hfind, of_decide_eq_true hdead, hreap⟩

theorem threadForceSwitch_touched (k : Kernel) : Touched k k.threadForceSwitch := by
  have hproc := threadForceSwitch_proc k
  obtain ⟨proc, hsame⟩ := threadForceSwitch_same k
  rw [hsame] at hproc ⊢
  refine ⟨rfl, rfl, rfl, fun q => ?_⟩
  obtain ⟨quota, hq⟩ := hproc q
  rw [hq]
  exact ⟨rfl, rfl, rfl, rfl, rfl, rfl⟩

theorem sysKill_changes (h : k.sysKill pid sig = .ok (res, k')) : Changes k k' := by
  rcases sysKill_ok h with ⟨rfl, -⟩ | ⟨prc, -, hlive, -, ⟨-, hk⟩ | ⟨-, -, -, hsend⟩⟩
  · exact .touch (.refl _)
  · exact .kill hk
  · obtain ⟨k₁, k₂, hwake, hkill, rfl⟩ := sendSignal_ok hsend
    have hsig : Touched k (k.enqueueSignal prc (sig % 4294967296).toNat) := by
      refine ⟨rfl, rfl, rfl, fun q => ?_⟩
      rw [enqueueSignal_proc]
      exact ⟨rfl, rfl, rfl, rfl, rfl, rfl⟩
    have hk₁ : Changes k k₁ := by
      rcases hwake with ⟨rfl, -⟩ | ⟨rfl, -⟩
      · exact .touch hsig
      · exact (Changes.touch hsig).trans (.single (.wake ((hsig.proc prc).died.trans hlive)))
    have hk₂ : Changes k₁ k₂ := by
      rcases hkill with rfl | ⟨-, -, hk⟩
      · exact .touch (.refl _)
      · exact .kill hk
    exact (hk₁.trans hk₂).trans (.touch (threadForceSwitch_touched k₂))

def sigexitQueue (signum : Nat) : List Nat → List Nat
  | [] => []
  | n :: rest => if n = signum then rest ++ [n] else rest

theorem mem_of_mem_sigexitQueue {signum num : Nat} {queue : List Nat} (h : num ∈ sigexitQueue signum queue) : num ∈ queue := by
  unfold sigexitQueue at h
  split at h
  · exact h
  · split at h
    · exact (perm_append_singleton _ _).mem_iff.mp h
    · exact mem_cons_of_mem _ h

theorem sysSigexit_eq (k : Kernel) (signum : Nat) :
    OnlyProc k (k.sysSigexit signum) ∧ ∀ q, ∃ exited quota, (k.sysSigexit signum).proc q =
      if q = k.caller then
        { k.proc q with
          signalHandlers := Function.update (k.proc q).signalHandlers signum
            { (k.proc q).signalHandlers signum with blocked := false, exited }
          signalQueue := sigexitQueue signum (k.proc q).signalQueue
          quota }
      else { k.proc q with quota } := by
  unfold sysSigexit
  simp only [modify_self]
  cases hqueue : (k.proc k.caller).signalQueue with
  | nil =>
    refine ⟨⟨_, rfl⟩, fun q => ⟨true, (k.proc q).quota, ?_⟩⟩
    by_cases hq : q = k.caller
    · subst hq
      simp [hqueue, sigexitQueue]
    · rw [if_neg hq, modify_of_ne _ _ _ _ hq, modify_of_ne _ _ _ _ hq]
  | cons n rest =>
    refine ⟨OnlyProc.trans ?_ (threadForceSwitch_same _), fun q => ?_⟩
    · split <;> exact ⟨_, rfl⟩
    · obtain ⟨quota, hproc⟩ := threadForceSwitch_proc _ q
      refine ⟨n ≠ signum ∨ ((k.proc q).signalHandlers signum).exited, quota, hproc.trans ?_⟩
      by_cases hq : q = k.caller
      · subst hq
        by_cases hn : n = signum <;> simp [hqueue, sigexitQueue, hn]
      · rw [if_neg hq]
        split <;> rw [modify_of_ne _ _ _ _ hq, modify_of_ne _ _ _ _ hq, modify_of_ne _ _ _ _ hq]

theorem sysSigexit_touched (k : Kernel) (signum : Nat) : Touched k (k.sysSigexit signum) := by
  obtain ⟨⟨proc, hsame⟩, hproc⟩ := sysSigexit_eq k signum
  rw [hsame] at hproc ⊢
  refine ⟨rfl, rfl, rfl, fun q => ?_⟩
  obtain ⟨exited, quota, hq⟩ := hproc q
  rw [hq]
  split <;> exact ⟨rfl, rfl, rfl, rfl, rfl, rfl⟩

def cloned (k : Kernel) (pid : Nat) (aspace : Option Nat) : Kernel :=
  k.modify pid fun p => { p with aspace, type := .thread, state := .running }

theorem sysClone_ok {pid : Nat} (h : k.sysClone = .ok (pid, k')) :
    pid = k.freePid ∧ ∃ k₁ aspace, Created k true k₁ ∧ k' = k₁.cloned k.freePid aspace := by
  obtain ⟨⟨pid₁, k₁⟩, hc, h⟩ := bind_ok h
  obtain ⟨rfl, rfl⟩ := h
  obtain ⟨rfl, hcreated⟩ := threadCreate_ok hc
  exact ⟨rfl, k₁, _, hcreated, rfl⟩

/-- A call makes a process, with or without its own address space, takes a dead child from the caller's
    queue, or only changes processes. -/
theorem Step.family (h : Step k c k') : (∃ isUser, Created k isUser k') ∨
      (∃ k₁ aspace, Created k true k₁ ∧ k' = k₁.cloned k.freePid aspace) ∨
      (∃ child, c = .waitpid child ∧ ((k.proc child).parent = some k.caller ∨ child ∈ (k.proc k.caller).childQueue) ∧
        k' = (k.reap k.caller child).2) ∨
      Changes k k' := by
  cases h with
  | create hc => exact .inl ⟨_, (threadCreate_ok hc).2⟩
  | clone hc => exact .inr (.inl (sysClone_ok hc).2)
  | waitpid hparent hpoll =>
    obtain ⟨-, -, hreap⟩ := waitpidPoll_some hpoll
    exact .inr (.inr (.inl ⟨_, rfl, .inl hparent, (congrArg Prod.snd hreap).symm⟩))
  | waitpidAny hany =>
    obtain ⟨hmem, -, hreap⟩ := waitpidAny_some hany
    exact .inr (.inr (.inl ⟨_, rfl, .inr hmem, (congrArg Prod.snd hreap).symm⟩))
  | schedule hs => exact .inr (.inr (.inr (threadSchedule_changes hs)))
  | kill _ hk => exact .inr (.inr (.inr (.kill (threadKillThread_ok hk))))
  | sysKill hk => exact .inr (.inr (.inr (sysKill_changes hk)))
  | nice => exact .inr (.inr (.inr (.touch (.modify _ _ _ ⟨rfl, rfl, rfl, rfl, rfl, rfl⟩))))
  | sigexit => exact .inr (.inr (.inr (.touch (sysSigexit_touched ..))))

theorem Step.freePid_le (h : Step k c k') : k.freePid ≤ k'.freePid := by
  rcases h.family with ⟨isUser, hc⟩ | ⟨k₁, aspace, hc, rfl⟩ | ⟨child, -, -, rfl⟩ | hchanges
  · exact hc.freePid ▸ Nat.le_succ _
  · exact Nat.le_trans (Nat.le_succ _) (Nat.le_of_eq hc.freePid.symm)
  · exact Nat.le_refl _
  · exact Nat.le_of_eq hchanges.freePid.symm

theorem toOption_eq_some {α : Type} {x : Except Fault α} {a : α} (h : x.toOption = some a) : x = .ok a := by
  cases x with
  | error e => cases h
  | ok b =>
    cases h
    rfl

theorem step_of_exec (h : k.exec c = some k') : Step k c k' := by
  cases c with
  | create isUser =>
    obtain ⟨⟨pid, k₁⟩, hok, rfl⟩ := map_eq_some_iff.mp h
    exact .create (toOption_eq_some hok)
  | schedule r =>
    obtain ⟨⟨k₁, r₁⟩, hfilter, rfl⟩ := map_eq_some_iff.mp h
    obtain ⟨hok, hr⟩ := filter_eq_some_iff.mp hfilter
    obtain rfl : r₁ = r := of_decide_eq_true hr
    exact .schedule (toOption_eq_some hok)
  | kill prc code reschedule =>
    simp only [exec] at h
    split at h
    next hprc => exact .kill hprc (toOption_eq_some h)
    · cases h
  | sysKill pid sig =>
    obtain ⟨⟨res, k₁⟩, hok, rfl⟩ := map_eq_some_iff.mp h
    exact .sysKill (toOption_eq_some hok)
  | nice prio =>
    cases h
    exact .nice
  | sigexit signum =>
    simp only [exec] at h
    split at h
    next hlt =>
      cases h
      exact .sigexit hlt
    · cases h
  | clone =>
    obtain ⟨⟨pid, k₁⟩, hok, rfl⟩ := map_eq_some_iff.mp h
    exact .clone (toOption_eq_some hok)
  | waitpid child =>
    simp only [exec] at h
    split at h
    next hparent =>
      obtain ⟨⟨status, k₁⟩, hpoll, rfl⟩ := map_eq_some_iff.mp h
      exact .waitpid hparent hpoll
    · cases h

def slice (p : Nat) : List Call := List.replicate 10 (.schedule .returned) ++ [.schedule (.switched p)]

def twoTasks : List Call := [.create true, .schedule (.switched 1), .create true] ++ slice 1 ++ slice 2

end Kernel
end HelinKern
