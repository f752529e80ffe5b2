import HelinKern.Theorems.Waitpid

/-! The tree of processes: as long as only childless processes that are no threads are killed, every
    process that is not freed has a live parent and is in that parent's queue once. -/

namespace HelinKern
open Lts Function List Option Kernel

/-! ### Processes and their calls -/

/-- The kernel, the child each process in `sys_waitpid` waits for, and the process that created another. -/
structure Family where
  kernel : Kernel
  waiting : Nat → Option Nat
  creator : Nat → Option Nat

variable {r child : Nat}

namespace Family

/-- `r` runs, and is not inside `sys_waitpid`. -/
structure Calls (s : Family) (r : Nat) : Prop where
  running : s.kernel.runningTask = some r
  task : r ∈ s.kernel.taskList
  free : s.waiting r = none

def switchTo (k : Kernel) (p : Nat) : Kernel :=
  { k.modify p fun q => { q with quota := 0, started := true } with runningTask := some p }

inductive Op
  | switch (p : Nat)
  | create (isUser : Bool)
  | clone
  | kill (prc : Nat) (code : Int) (reschedule : Bool)
  | wait (pid : Int)
  | waited
  | waitAny

instance (s : Family) (r : Nat) : Decidable (s.Calls r) :=
  decidable_of_iff (s.kernel.runningTask = some r ∧ r ∈ s.kernel.taskList ∧ s.waiting r = none)
    ⟨fun h => ⟨h.1, h.2.1, h.2.2⟩, fun h => ⟨h.running, h.task, h.free⟩⟩

/-- Any process of the task list may run next. A `sys_waitpid` for one child begins with its lookup and
    ends with a look at the dead child, between which other processes make their calls. -/
def exec (s : Family) (op : Op) : Option Family :=
  let r := s.kernel.threadGetCurrent
  match op with
  | .switch p => if p ∈ s.kernel.taskList then some { s with kernel := switchTo s.kernel p } else none
  | .create isUser =>
    if s.Calls r then
      (s.kernel.threadCreate isUser).toOption.map fun (pid, k) =>
        { s with kernel := k, creator := update s.creator pid (some r) }
    else none
  | .clone =>
    if s.Calls r then
      s.kernel.sysClone.toOption.map fun (pid, k) =>
        { s with kernel := k, creator := update s.creator pid (some r) }
    else none
  | .kill prc code reschedule =>
    if prc ∈ s.kernel.taskList ∨ prc = idle then
      (s.kernel.threadKillThread prc code reschedule).toOption.map fun k => { s with kernel := k }
    else none
  | .wait pid =>
    if s.Calls r then
      (s.kernel.waitpidChild r pid).map fun child => { s with waiting := update s.waiting r (some child) }
    else none
  | .waited =>
    if s.kernel.runningTask = some r ∧ r ∈ s.kernel.taskList then
      (s.waiting r).bind fun child => (s.kernel.waitpidPoll r child).map fun (_, k) =>
        { s with kernel := k, waiting := update s.waiting r none }
    else none
  | .waitAny =>
    if s.Calls r then (s.kernel.waitpidAny r).map fun (_, _, k) => { s with kernel := k } else none

def Step (s : Family) (op : Op) (s' : Family) : Prop := s.exec op = some s'

/-- The kernel creates init; from then on processes create processes. -/
inductive Start : Family → Prop
  | boot {k₀ k : Kernel} {isUser : Bool} (hinit : Kernel.threadInit = .ok k₀)
      (h : k₀.threadCreate isUser = .ok (1, k)) : Start ⟨k, fun _ => none, fun _ => none⟩

/-- Every process that is not freed has a live parent, its creator or init after the creator's death, in
    whose queue it is exactly once, and no queue and no parent is a freed process. -/
structure Integrity (s : Family) : Prop where
  parent : ∀ p < s.kernel.freePid, p ∉ s.kernel.freed → p ≠ idle → p ≠ 1 →
    ∃ par, (s.kernel.proc p).parent = some par ∧
      (s.creator p = some par ∨ par = 1 ∧ ∃ q, s.creator p = some q ∧ (s.kernel.proc q).died = true) ∧
      par < s.kernel.freePid ∧ par ∉ s.kernel.freed ∧ (s.kernel.proc par).died = false ∧
      (s.kernel.proc par).childQueue.count p = 1
  child : ∀ p < s.kernel.freePid, p ∉ s.kernel.freed → ∀ c ∈ (s.kernel.proc p).childQueue, c ∉ s.kernel.freed
  freed : ∀ p < s.kernel.freePid, p ∉ s.kernel.freed → ∀ par, (s.kernel.proc p).parent = some par → par ∉ s.kernel.freed

structure Inv (s : Family) : Prop where
  kin : s.kernel.KinInv
  init : (s.kernel.proc 1).parent = some idle
  state : ∀ p ∈ s.kernel.taskList, (s.kernel.proc p).state = .running
  freed : ∀ p ∈ s.kernel.freed, p ≠ idle ∧ (s.kernel.proc p).died = true
  child : ∀ q, ∀ c ∈ (s.kernel.proc q).childQueue, c ∉ s.kernel.freed ∧ (s.kernel.proc c).parent = some q
  parent : ∀ p < s.kernel.freePid, p ∉ s.kernel.freed → p ≠ idle → p ≠ 1 →
    ∃ par, s.creator p = some par ∧ (s.kernel.proc p).parent = some par ∧ par ∈ s.kernel.taskList ∧
      (s.kernel.proc par).childQueue.count p = 1
  waiting : ∀ r c, s.waiting r = some c → c ∉ s.kernel.freed ∧ (s.kernel.proc c).parent = some r

variable {s s' : Family}

theorem Inv.integrity (inv : Inv s) : Integrity s := by
  have hlive : ∀ p, (s.kernel.proc p).died = false → p ∉ s.kernel.freed := by
    intro p hp hmem
    rw [(inv.freed p hmem).2] at hp
    cases hp
  refine ⟨?_, fun p _ _ c hc => (inv.child p c hc).1, ?_⟩
  · intro p hlt hfreed hidle hinit
    obtain ⟨par, hcreator, hparent, htask, hcount⟩ := inv.parent p hlt hfreed hidle hinit
    obtain ⟨hpar, -, hpl⟩ := inv.kin.task par htask
    exact ⟨par, hparent, Or.inl hcreator, hpar, hlive par hpl, hpl, hcount⟩
  · intro p hlt hfreed par hpar hmem
    by_cases hinit : p = 1
    · rw [hinit, inv.init] at hpar
      cases hpar
      exact (inv.freed _ hmem).1 rfl
    · obtain ⟨-, hidle⟩ := inv.kin.of_parent hpar
      obtain ⟨par', -, hpar', htask, -⟩ := inv.parent p hlt hfreed hidle hinit
      rw [hpar] at hpar'
      cases hpar'
      exact hlive par (inv.kin.task par htask).2.2 hmem

variable {k : Kernel} {op : Op}

/-- The tree stays if no parent and no queue changes and only processes without children leave the list. -/
theorem Inv.kept (inv : Inv s) (hkin : k.KinInv) (hpid : k.freePid = s.kernel.freePid) (hfreed : k.freed = s.kernel.freed)
    (hparent : ∀ q, (k.proc q).parent = (s.kernel.proc q).parent)
    (hqueue : ∀ q, (k.proc q).childQueue = (s.kernel.proc q).childQueue)
    (hstate : ∀ p ∈ k.taskList, (k.proc p).state = .running)
    (hdied : ∀ p, (s.kernel.proc p).died → (k.proc p).died)
    (htasks : ∀ p ∈ s.kernel.taskList, (s.kernel.proc p).childQueue ≠ [] → p ∈ k.taskList) :
    Inv { s with kernel := k } := by
  refine ⟨hkin, (hparent 1).trans inv.init, hstate, ?_, ?_, ?_, ?_⟩
  · intro p hp
    obtain ⟨hidle, hpd⟩ := inv.freed p (hfreed ▸ hp)
    exact ⟨hidle, hdied p hpd⟩
  · intro q c hc
    rw [hqueue] at hc
    rw [hfreed, hparent]
    exact inv.child q c hc
  · intro p hlt hpf hidle hinit
    rw [hpid] at hlt
    rw [hfreed] at hpf
    obtain ⟨par, hcreator, hpar, htask, hcount⟩ := inv.parent p hlt hpf hidle hinit
    refine ⟨par, hcreator, (hparent p).trans hpar, htasks par htask ?_, (congrArg (List.count p) (hqueue par)).trans hcount⟩
    intro hnil
    rw [hnil] at hcount
    cases hcount
  · intro q c hwait
    rw [hfreed, hparent]
    exact inv.waiting q c hwait

theorem Inv.touched (inv : Inv s) (h : s.kernel.Touched k) : Inv { s with kernel := k } :=
  inv.kept (inv.kin.touched h) h.freePid h.freed (fun q => (h.proc q).parent) (fun q => (h.proc q).childQueue)
    (fun p hp => (h.proc p).state.trans (inv.state p (h.taskList ▸ hp))) (fun p hp => (h.proc p).died.trans hp)
    fun _ hp _ => h.taskList ▸ hp

theorem switchTo_touched (k : Kernel) (p : Nat) : k.Touched (switchTo k p) := by
  have := Kernel.Touched.modify k p (fun q => { q with quota := 0, started := true }) ⟨rfl, rfl, rfl, rfl, rfl, rfl⟩
  exact ⟨rfl, rfl, rfl, this.proc⟩

theorem Inv.created {isUser : Bool} (inv : Inv s) (hr : s.Calls r) (hc : s.kernel.Created isUser k) :
    Inv { s with kernel := k, creator := update s.creator s.kernel.freePid (some r) } := by
  obtain ⟨hrlt, hridle, hrlive⟩ := inv.kin.task r hr.task
  have hrne : r ≠ s.kernel.freePid := Nat.ne_of_lt hrlt
  have hnew : k.proc s.kernel.freePid = .new (some r) isUser := by
    rw [← hr.running]
    refine hc.new_of_ne ?_
    rw [hr.running]
    exact fun h => hrne (some.inj h)
  have hqueue : ∀ q ≠ s.kernel.freePid, (k.proc q).childQueue =
      (s.kernel.proc q).childQueue ++ if q = r then [s.kernel.freePid] else [] := by
    intro q hq
    rw [hc.proc q hq, hr.running]
    by_cases hqr : q = r
    · subst hqr
      simp [hridle, inv.state q hr.task]
    · simp [hqr, Ne.symm hqr]
  have hold : ∀ q ≠ s.kernel.freePid, (k.proc q).parent = (s.kernel.proc q).parent ∧
      (k.proc q).state = (s.kernel.proc q).state ∧ (k.proc q).died = (s.kernel.proc q).died := by
    intro q hq
    rw [hc.proc q hq]
    exact ⟨rfl, rfl, rfl⟩
  have hfresh : s.kernel.freePid ∉ s.kernel.freed := (inv.kin.fresh _ (Nat.le_refl _)).1
  have hlt : ∀ {p q}, (s.kernel.proc p).parent = some q → p ≠ s.kernel.freePid :=
    fun h => Nat.ne_of_lt (inv.kin.of_parent h).1
  refine ⟨inv.kin.created hc, ?_, ?_, ?_, ?_, ?_, ?_⟩
  · exact (hold 1 (hlt inv.init)).1.trans inv.init
  · intro p hp
    rw [hc.taskList] at hp
    rcases mem_append.mp hp with hp | hp
    · exact (hold p (Nat.ne_of_lt (inv.kin.task p hp).1)).2.1.trans (inv.state p hp)
    · rw [mem_singleton.mp hp, hnew]
      rfl
  · intro p hp
    rw [hc.freed] at hp
    have hne : p ≠ s.kernel.freePid := fun h => hfresh (h ▸ hp)
    rw [(hold p hne).2.2]
    exact inv.freed p hp
  · intro q c hmem
    rw [hc.freed]
    by_cases hq : q = s.kernel.freePid
    · rw [hq, hnew] at hmem
      cases hmem
    rw [hqueue q hq] at hmem
    rcases mem_append.mp hmem with hmem | hmem
    · obtain ⟨hfreed, hparent⟩ := inv.child q c hmem
      exact ⟨hfreed, (hold c (hlt hparent)).1.trans hparent⟩
    split at hmem
    next hqr =>
      rw [mem_singleton.mp hmem, hnew, hqr]
      exact ⟨hfresh, rfl⟩
    · cases hmem
  · intro p hplt hfreed hidle hinit
    rw [hc.freed] at hfreed
    by_cases hp : p = s.kernel.freePid
    · subst hp
      refine ⟨r, update_self .., by rw [hnew]; rfl, ?_, ?_⟩
      · rw [hc.taskList]
        exact mem_append_left _ hr.task
      · rw [hqueue r hrne, if_pos rfl, count_append, count_singleton_self,
          count_eq_zero_of_not_mem fun h => Nat.lt_irrefl _ (inv.kin.child r _ h)]
    · rw [hc.freePid] at hplt
      obtain ⟨par, hcreator, hparent, htask, hcount⟩ := inv.parent p (by omega) hfreed hidle hinit
      refine ⟨par, (update_of_ne hp ..).trans hcreator, (hold p hp).1.trans hparent, ?_, ?_⟩
      · rw [hc.taskList]
        exact mem_append_left _ htask
      · rw [hqueue par (Nat.ne_of_lt (inv.kin.task par htask).1), count_append, hcount]
        split
        · rw [count_singleton]
          simp [Ne.symm hp]
        · rfl
  · intro q c hwait
    obtain ⟨hfreed, hparent⟩ := inv.waiting q c hwait
    exact ⟨hc.freed ▸ hfreed, (hold c (hlt hparent)).1.trans hparent⟩

theorem Inv.cloned {pid : Nat} {aspace : Option Nat} (inv : Inv s) (hpid : pid ∈ s.kernel.taskList) :
    Inv { s with kernel := s.kernel.cloned pid aspace } := by
  obtain ⟨hlt, -, hlive⟩ := inv.kin.task pid hpid
  refine inv.kept (inv.kin.cloned hlt hlive) rfl rfl ?_ ?_ (fun p hp => ?_) (fun p hp => ?_) fun p hp _ => hp
  all_goals
    unfold Kernel.cloned
    simp only [modify_proc]
  · exact fun q => by split <;> rfl
  · exact fun q => by split <;> rfl
  · split
    · rfl
    · exact inv.state p hp
  · split <;> exact hp

theorem Inv.killed {prc : Nat} {code : Int} (inv : Inv s) (htype : (s.kernel.proc prc).type = .process)
    (hchild : (s.kernel.proc prc).childQueue = []) (hk : s.kernel.Killed prc code k) : Inv { s with kernel := k } := by
  refine inv.kept (inv.kin.killed hk) hk.freePid ?_ (fun q => ?_) (fun q => ?_) (fun p hp => ?_) (fun p hp => ?_)
    fun p hp hne => ?_
  · rw [hk.freed, htype]
    rfl
  · rw [hk.parent, hchild]
    exact if_neg fun h => absurd h.1 not_mem_nil
  · rw [hk.childQueue, hchild]
    by_cases hq : q = prc
    · rw [if_pos hq, hq, hchild]
    · rw [if_neg hq, filter_nil, ite_self, append_nil]
  · obtain ⟨hne, hp⟩ := (hk.mem_taskList inv.kin.nodup).mp hp
    exact (hk.core p hne).state.trans (inv.state p hp)
  · by_cases hpp : p = prc
    · rw [hpp]
      exact hk.dead.died
    · exact (hk.core p hpp).died.trans hp
  · refine (hk.mem_taskList inv.kin.nodup).mpr ⟨?_, hp⟩
    rintro rfl
    exact hne hchild

theorem Inv.wait {pid : Int} (inv : Inv s) (h : s.kernel.waitpidChild r pid = some child) :
    Inv { s with waiting := update s.waiting r (some child) } := by
  refine { inv with waiting := ?_ }
  intro q c (hwait : update s.waiting r (some child) q = some c)
  by_cases hq : q = r
  · subst hq
    rw [update_self] at hwait
    cases hwait
    obtain ⟨hget, hparent⟩ := waitpidChild_some h
    refine ⟨fun hmem => ?_, hparent⟩
    have hne := (inv.kin.of_parent hparent).2
    have htask := (threadGetThread_some hget).resolve_right hne
    have := (inv.freed child hmem).2
    rw [(inv.kin.task child htask).2.2] at this
    cases this
  · rw [update_of_ne hq] at hwait
    exact inv.waiting q c hwait

theorem Inv.reaped {waiting : Nat → Option Nat} (inv : Inv s) (hr : r ∈ s.kernel.taskList)
    (hfreed : child ∉ s.kernel.freed) (hparent : (s.kernel.proc child).parent = some r)
    (hdied : (s.kernel.proc child).died) (hwaiting : ∀ q c, waiting q = some c → s.waiting q = some c ∧ q ≠ r) :
    Inv { s with kernel := (s.kernel.reap r child).2, waiting } := by
  obtain ⟨hlt, hidle⟩ := inv.kin.of_parent hparent
  have hproc : ∀ q, (s.kernel.reap r child).2.proc q = { s.kernel.proc q with
      childQueue := if q = r then (s.kernel.proc q).childQueue.erase child else (s.kernel.proc q).childQueue } := by
    intro q
    refine (modify_proc s.kernel r q fun p => { p with childQueue := p.childQueue.erase child }).trans ?_
    split <;> rfl
  have hone : (s.kernel.proc r).childQueue.count child = 1 := by
    have hinit : child ≠ 1 := by
      rintro rfl
      rw [inv.init] at hparent
      cases hparent
      exact (inv.kin.task _ hr).2.1 rfl
    obtain ⟨par, -, hpar, -, hcount⟩ := inv.parent child hlt hfreed hidle hinit
    rw [hparent] at hpar
    cases hpar
    exact hcount
  -- A child of another process is not the one that is freed.
  have hother : ∀ {c q}, c ∉ s.kernel.freed → (s.kernel.proc c).parent = some q → c ≠ child →
      c ∉ child :: s.kernel.freed ∧ ((s.kernel.reap r child).2.proc c).parent = some q := by
    intro c q hcf hcp hne
    rw [hproc]
    exact ⟨fun h => (mem_cons.mp h).elim hne hcf, hcp⟩
  refine ⟨inv.kin.reaped hlt, ?_, ?_, ?_, ?_, ?_, ?_⟩
  · rw [hproc]
    exact inv.init
  · intro p hp
    rw [hproc]
    exact inv.state p hp
  · intro p hp
    rw [hproc]
    rcases mem_cons.mp hp with rfl | hp
    · exact ⟨hidle, hdied⟩
    · exact inv.freed p hp
  · intro q c hc
    rw [hproc] at hc
    by_cases hq : q = r
    · subst hq
      rw [if_pos rfl] at hc
      obtain ⟨hcf, hcp⟩ := inv.child q c (mem_of_mem_erase hc)
      refine hother hcf hcp ?_
      rintro rfl
      have := count_pos_iff.mpr hc
      rw [count_erase_self, hone] at this
      exact Nat.lt_irrefl _ this
    · rw [if_neg hq] at hc
      obtain ⟨hcf, hcp⟩ := inv.child q c hc
      refine hother hcf hcp ?_
      rintro rfl
      rw [hparent] at hcp
      cases hcp
      exact hq rfl
  · intro p hplt hpf hpidle hinit
    obtain ⟨hne, hpf⟩ := not_or.mp fun h => hpf (mem_cons.mpr h)
    obtain ⟨par, hcreator, hpar, htask, hcount⟩ := inv.parent p hplt hpf hpidle hinit
    refine ⟨par, hcreator, (hother hpf hpar hne).2, htask, ?_⟩
    rw [hproc]
    split
    next hq =>
      rw [count_erase_of_ne hne]
      exact hcount
    · exact hcount
  · intro q c hwait
    obtain ⟨hold, hq⟩ := hwaiting q c hwait
    obtain ⟨hcf, hcp⟩ := inv.waiting q c hold
    refine hother hcf hcp ?_
    rintro rfl
    rw [hparent] at hcp
    cases hcp
    exact hq rfl

theorem Start.inv (h : Start s) : Inv s := by
  cases h with
  | boot hinit h =>
    rename_i k₀ k isUser
    have hboot := threadInit_ok hinit
    obtain ⟨-, hc⟩ := threadCreate_ok h
    have hnew : k.proc 1 = .new (some idle) isUser := by
      have := hc.new_of_ne (by rw [hboot.running, hboot.freePid]; decide)
      rwa [hboot.freePid, hboot.running] at this
    have hfreed : k.freed = [] := hc.freed.trans hboot.freed
    have hqueue : ∀ q, (k.proc q).childQueue = [] := by
      intro q
      by_cases hq : q = 1
      · rw [hq, hnew]
        rfl
      rw [hc.proc q (hboot.freePid ▸ hq), hboot.running]
      by_cases hidle : q = idle
      · rw [hidle, hboot.proc_idle]
        rfl
      · simp [(hboot.fresh q hidle).2.2, Ne.symm hidle]
    refine ⟨hboot.kinInv.created hc, by rw [hnew]; rfl, ?_, ?_, ?_, ?_, fun _ _ h => by cases h⟩
    · intro p hp
      rw [hc.taskList, hboot.taskList, hboot.freePid] at hp
      rw [mem_singleton.mp hp, hnew]
      rfl
    · intro p hp
      rw [hfreed] at hp
      cases hp
    · intro q c hc
      rw [hqueue] at hc
      cases hc
    · intro p hlt _ hidle hinit
      rw [hc.freePid, hboot.freePid] at hlt
      unfold idle at hidle
      omega

/-- Only processes without children and of their own address space are killed. -/
structure ChildlessStep (s : Family) (op : Op) (s' : Family) : Prop where
  step : Step s op s'
  childless : ∀ prc code reschedule, op = .kill prc code reschedule →
    (s.kernel.proc prc).type = .process ∧ (s.kernel.proc prc).childQueue = []

theorem Inv.step (inv : Inv s) (h : ChildlessStep s op s') : Inv s' := by
  have hstep := h.step
  cases op with
  | switch p =>
    obtain ⟨-, hs⟩ := ite_none_right_eq_some.mp hstep
    cases hs
    exact inv.touched (switchTo_touched ..)
  | create isUser =>
    obtain ⟨hr, hs⟩ := ite_none_right_eq_some.mp hstep
    obtain ⟨⟨pid, k⟩, hc, rfl⟩ := map_eq_some_iff.mp hs
    obtain ⟨rfl, hcreated⟩ := threadCreate_ok (toOption_eq_some hc)
    exact inv.created hr hcreated
  | clone =>
    obtain ⟨hr, hs⟩ := ite_none_right_eq_some.mp hstep
    obtain ⟨⟨pid, k⟩, hc, rfl⟩ := map_eq_some_iff.mp hs
    obtain ⟨rfl, k₁, aspace, hcreated, rfl⟩ := sysClone_ok (toOption_eq_some hc)
    refine (inv.created hr hcreated).cloned ?_
    rw [hcreated.taskList]
    exact mem_append_right _ mem_cons_self
  | kill prc code reschedule =>
    obtain ⟨htype, hchild⟩ := h.childless _ _ _ rfl
    obtain ⟨-, hs⟩ := ite_none_right_eq_some.mp hstep
    obtain ⟨k, hk, rfl⟩ := map_eq_some_iff.mp hs
    exact inv.killed htype hchild (threadKillThread_ok (toOption_eq_some hk))
  | wait pid =>
    obtain ⟨-, hs⟩ := ite_none_right_eq_some.mp hstep
    obtain ⟨child, hw, rfl⟩ := map_eq_some_iff.mp hs
    exact inv.wait hw
  | waited =>
    obtain ⟨⟨-, hr⟩, hs⟩ := ite_none_right_eq_some.mp hstep
    obtain ⟨child, hwait, hs⟩ := bind_eq_some_iff.mp hs
    obtain ⟨⟨status, k⟩, hpoll, rfl⟩ := map_eq_some_iff.mp hs
    generalize s.kernel.threadGetCurrent = r at hr hwait hpoll ⊢
    obtain ⟨-, hdied, hreap⟩ := waitpidPoll_some hpoll
    obtain rfl : (s.kernel.reap r child).2 = k := congrArg Prod.snd hreap
    obtain ⟨hfreed, hparent⟩ := inv.waiting r child hwait
    refine inv.reaped hr hfreed hparent hdied fun q c hq => ?_
    by_cases hqr : q = r
    · subst hqr
      rw [update_self] at hq
      cases hq
    · rw [update_of_ne hqr] at hq
      exact ⟨hq, hqr⟩
  | waitAny =>
    obtain ⟨hr, hs⟩ := ite_none_right_eq_some.mp hstep
    obtain ⟨⟨child, status, k⟩, hany, rfl⟩ := map_eq_some_iff.mp hs
    generalize s.kernel.threadGetCurrent = r at hr hany
    obtain ⟨hmem, hdead, hreap⟩ := waitpidAny_some hany
    obtain rfl : (s.kernel.reap r child).2 = k := congrArg Prod.snd hreap
    obtain ⟨hfreed, hparent⟩ := inv.child r child hmem
    have hdied : (s.kernel.proc child).died := by
      obtain ⟨hlt, hidle⟩ := inv.kin.of_parent hparent
      by_contra hlive
      have htask := inv.kin.listed child hlt hidle (Bool.eq_false_iff.mpr hlive)
      rw [inv.state child htask] at hdead
      rcases hdead with h | h
      · exact hlive h
      · cases h
    refine inv.reaped hr.task hfreed hparent hdied fun q c hq => ⟨hq, ?_⟩
    rintro rfl
    rw [hr.free] at hq
    cases hq

/-! ### Runs that are evaluated -/

def boot : Option Family :=
  Kernel.threadInit.toOption.bind fun k₀ =>
    ((k₀.threadCreate false).toOption.filter fun out => out.1 = 1).map fun out => ⟨out.2, fun _ => none, fun _ => none⟩

theorem start_of_boot (h : boot = some s) : Start s := by
  obtain ⟨k₀, hinit, h⟩ := bind_eq_some_iff.mp h
  obtain ⟨⟨pid, k⟩, hc, rfl⟩ := map_eq_some_iff.mp h
  obtain ⟨hc, hpid⟩ := filter_eq_some_iff.mp hc
  obtain rfl : pid = 1 := of_decide_eq_true hpid
  exact .boot (toOption_eq_some hinit) (toOption_eq_some hc)

def childlessCheck (s : Family) (op : Op) (_ : Family) : Bool :=
  match op with
  | .kill prc _ _ => (s.kernel.proc prc).type = .process ∧ (s.kernel.proc prc).childQueue = []
  | _ => true

theorem childlessStep_of_check (h : Step s op s' ∧ childlessCheck s op s') : ChildlessStep s op s' := by
  refine ⟨h.1, fun prc code reschedule hop => ?_⟩
  subst hop
  exact of_decide_eq_true h.2

/-! ### The tree -/

/-- The tree of processes is whole in every state that is reached while only childless processes that
    are no threads are killed. -/
theorem integrity_of_childless {ops : List Op} (hstart : Start s) (hrun : Run ChildlessStep s ops s') :
    Integrity s' :=
  (hrun.invariant Inv hstart.inv fun inv h => inv.step h).integrity

/-- Init creates a process and a thread, and waits for the process until that exits. -/
theorem integrity_of_childless_waited :
    ∃ s s', Start s ∧ Run ChildlessStep s [.switch 1, .create true, .clone, .wait 2, .switch 2, .kill 2 7 true, .switch 1,
      .waited] s' ∧ 2 ∈ s'.kernel.freed ∧ Integrity s' := by
  have heval : (boot.bind (Run.execAll exec childlessCheck · [.switch 1, .create true, .clone, .wait 2, .switch 2,
      .kill 2 7 true, .switch 1, .waited])).any (2 ∈ ·.kernel.freed) = true := by decide +kernel
  obtain ⟨s, s', hboot, hrun, hmem⟩ := Run.of_any id childlessStep_of_check heval
  exact ⟨s, s', start_of_boot hboot, hrun, of_decide_eq_true hmem, integrity_of_childless (start_of_boot hboot) hrun⟩

/-- Process 2 dies before its child 3, which keeps the dead process as its parent. -/
theorem integrity_fails :
    ∃ s s', Start s ∧ Run Step s [.switch 1, .create true, .switch 2, .create true, .kill 2 7 true] s' ∧
      (s'.kernel.proc 3).parent = some 2 ∧ (s'.kernel.proc 2).died = true ∧ ¬Integrity s' := by
  have heval : (boot.bind (Run.execAll exec (fun _ _ _ => true) · [.switch 1, .create true, .switch 2, .create true,
      .kill 2 7 true])).any (fun s => 3 < s.kernel.freePid ∧ 3 ∉ s.kernel.freed ∧
        (s.kernel.proc 3).parent = some 2 ∧ (s.kernel.proc 2).died) = true := by decide +kernel
  obtain ⟨s, s', hboot, hrun, hend⟩ := Run.of_any (R := Step) id And.left heval
  obtain ⟨hlt, hfreed, hparent, hdied⟩ := of_decide_eq_true hend
  refine ⟨s, s', start_of_boot hboot, hrun, hparent, hdied, fun hint => ?_⟩
  obtain ⟨par, hpar, -, -, -, hlive, -⟩ := hint.parent 3 hlt hfreed (by decide) (by decide)
  rw [hparent] at hpar
  cases hpar
  rw [hdied] at hlive
  cases hlive

end Family
end HelinKern
