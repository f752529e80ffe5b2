import HelinKern.Theorems.Syscall

/-! The end of a child and its parent's `sys_waitpid`: the call returns the child exactly if it was made
    before the child died. -/

namespace HelinKern
variable {parent : Nat} {code : Int} {isUser : Bool}

namespace Kernel
open Lts List Option

/-- The processes of the task list are the live ones, the dead ones are zombies, and only threads are
    freed without having been waited for. -/
structure KinInv (k : Kernel) : Prop where
  idle_lt : idle < k.freePid
  idle_parent : (k.proc idle).parent = none
  nodup : k.taskList.Nodup
  task : ∀ p ∈ k.taskList, p < k.freePid ∧ p ≠ idle ∧ (k.proc p).died = false
  listed : ∀ p < k.freePid, p ≠ idle → (k.proc p).died = false → p ∈ k.taskList
  zombie : ∀ p < k.freePid, (k.proc p).died = true → (k.proc p).state = .zombie
  thread : ∀ p < k.freePid, (k.proc p).type = .thread → (k.proc p).died = true → p ∈ k.freed
  child : ∀ p, ∀ c ∈ (k.proc p).childQueue, c < k.freePid
  fresh : ∀ p, k.freePid ≤ p → p ∉ k.freed ∧ (k.proc p).type = .process ∧ (k.proc p).parent = none

def Kept (c : Nat) (k : Kernel) : Prop := (k.proc c).type = .process → c ∉ k.freed

section Steps
variable {k k' : Kernel} {c : Nat}

structure Similar (p p' : Process) : Prop where
  died : p'.died = p.died
  parent : p'.parent = p.parent
  childQueue : ∀ c ∈ p'.childQueue, c ∈ p.childQueue
  dead : p.died = true → p'.state = p.state ∧ p'.type = p.type

theorem Similar.refl (p : Process) : Similar p p := ⟨rfl, rfl, fun _ h => h, fun _ => ⟨rfl, rfl⟩⟩

theorem KinInv.of_similar (inv : KinInv k) (hlist : k'.taskList = k.taskList) (hpid : k'.freePid = k.freePid)
    (hfreed : ∀ p ∈ k.freed, p ∈ k'.freed) (hproc : ∀ q, Similar (k.proc q) (k'.proc q))
    (hfresh : ∀ p, k.freePid ≤ p → p ∉ k'.freed ∧ (k'.proc p).type = .process) : KinInv k' where
  idle_lt := hpid ▸ inv.idle_lt
  idle_parent := (hproc idle).parent.trans inv.idle_parent
  nodup := hlist ▸ inv.nodup
  task p hp := by
    rw [hpid, (hproc p).died]
    exact inv.task p (hlist ▸ hp)
  listed p hlt hne hlive := by
    rw [hpid] at hlt
    rw [(hproc p).died] at hlive
    rw [hlist]
    exact inv.listed p hlt hne hlive
  zombie p hlt hdied := by
    rw [hpid] at hlt
    rw [(hproc p).died] at hdied
    rw [((hproc p).dead hdied).1]
    exact inv.zombie p hlt hdied
  thread p hlt htype hdied := by
    rw [hpid] at hlt
    rw [(hproc p).died] at hdied
    rw [((hproc p).dead hdied).2] at htype
    exact hfreed p (inv.thread p hlt htype hdied)
  child p c hc := by
    rw [hpid]
    exact inv.child p c ((hproc p).childQueue c hc)
  fresh p hle := by
    rw [hpid] at hle
    obtain ⟨hf, ht⟩ := hfresh p hle
    exact ⟨hf, ht, (hproc p).parent.trans (inv.fresh p hle).2.2⟩

theorem KinInv.touched (inv : KinInv k) (h : Touched k k') : KinInv k' := by
  refine inv.of_similar h.taskList h.freePid (fun p hp => h.freed ▸ hp) (fun q => ?_) (fun p hle => ?_)
  · have hq := h.proc q
    exact ⟨hq.died, hq.parent, fun c hc => hq.childQueue ▸ hc, fun _ => ⟨hq.state, hq.type⟩⟩
  · rw [h.freed, (h.proc p).type]
    exact ⟨(inv.fresh p hle).1, (inv.fresh p hle).2.1⟩

theorem KinInv.modified {p : Nat} {f : Process → Process} (inv : KinInv k) (h : Similar (k.proc p) (f (k.proc p)))
    (htype : p < k.freePid ∨ (f (k.proc p)).type = (k.proc p).type) : KinInv (k.modify p f) := by
  refine inv.of_similar rfl rfl (fun _ hp => hp) (fun q => ?_) (fun q hle => ?_)
  · rw [modify_proc]
    split
    next hq =>
      rw [hq]
      exact h
    · exact .refl _
  · obtain ⟨hfreed, hprocess, -⟩ := inv.fresh q hle
    refine ⟨hfreed, ?_⟩
    rw [modify_proc]
    split
    next hq =>
      rw [hq] at hle hprocess ⊢
      exact (htype.resolve_left (Nat.not_lt.mpr hle)).trans hprocess
    · exact hprocess

variable {l : Call} {prc : Nat}

theorem KinInv.woken (inv : KinInv k) (hlive : (k.proc prc).died = false) : KinInv (k.woken prc) := by
  have hmod : KinInv (k.modify prc fun p => { p with state := .running }) :=
    inv.modified ⟨rfl, rfl, fun _ h => h, fun hdied => by rw [hlive] at hdied; cases hdied⟩ (Or.inr rfl)
  exact hmod.touched ⟨rfl, rfl, rfl, fun _ => .refl _⟩

theorem KinInv.cloned {pid : Nat} {aspace : Option Nat} (inv : KinInv k) (hlt : pid < k.freePid)
    (hlive : (k.proc pid).died = false) : KinInv (k.cloned pid aspace) :=
  inv.modified ⟨rfl, rfl, fun _ h => h, fun hdied => by rw [hlive] at hdied; cases hdied⟩ (Or.inl hlt)

theorem KinInv.reaped {child : Nat} (inv : KinInv k) (hlt : child < k.freePid) :
    KinInv (k.reap parent child).2 := by
  have hmod : KinInv (k.modify parent fun p => { p with childQueue := p.childQueue.erase child }) :=
    inv.modified ⟨rfl, rfl, fun _ h => mem_of_mem_erase h, fun _ => ⟨rfl, rfl⟩⟩ (Or.inr rfl)
  refine hmod.of_similar rfl rfl (fun _ hp => mem_cons_of_mem _ hp) (fun _ => .refl _) (fun p hle => ?_)
  obtain ⟨hfreed, hprocess, -⟩ := hmod.fresh p hle
  refine ⟨fun hmem => ?_, hprocess⟩
  rcases mem_cons.mp hmem with rfl | hmem
  · exact Nat.not_le.mpr hlt hle
  · exact hfreed hmem

theorem KinInv.killed (inv : KinInv k) (h : Killed k prc code k') : KinInv k' := by
  have hnone : ∀ p, (k.proc p).parent = none → (k'.proc p).parent = none := by
    intro p hp
    rw [h.parent, hp, ite_self]
  refine ⟨h.freePid ▸ inv.idle_lt, hnone idle inv.idle_parent, h.nodup inv.nodup, ?_, ?_, ?_, ?_, ?_, ?_⟩
  · intro p hp
    obtain ⟨hne, hp⟩ := (h.mem_taskList inv.nodup).mp hp
    rw [h.freePid, (h.core p hne).died]
    exact inv.task p hp
  · intro p hlt hne hlive
    rw [h.freePid] at hlt
    have hp := h.ne_of_live hlive
    rw [(h.core p hp).died] at hlive
    exact (h.mem_taskList inv.nodup).mpr ⟨hp, inv.listed p hlt hne hlive⟩
  · intro p hlt hdied
    rw [h.freePid] at hlt
    by_cases hp : p = prc
    · rw [hp]
      exact h.dead.state
    · rw [(h.core p hp).died] at hdied
      rw [(h.core p hp).state]
      exact inv.zombie p hlt hdied
  · intro p hlt hthread hdied
    rw [h.freePid] at hlt
    rw [h.type] at hthread
    rw [h.freed]
    by_cases hp : p = prc
    · subst hp
      rw [if_pos hthread]
      exact mem_cons_self
    · rw [(h.core p hp).died] at hdied
      have := inv.thread p hlt hthread hdied
      split
      · exact mem_cons_of_mem _ this
      · exact this
  · intro p c hc
    rw [h.freePid]
    rw [h.childQueue] at hc
    split at hc
    · cases hc
    rcases mem_append.mp hc with hc | hc
    · exact inv.child p c hc
    · split at hc
      · exact inv.child prc c (mem_filter.mp hc).1
      · cases hc
  · intro p hle
    rw [h.freePid] at hle
    obtain ⟨hfreed, hprocess, hparent⟩ := inv.fresh p hle
    exact ⟨h.not_mem_freed hprocess hfreed, (h.type p).trans hprocess, hnone p hparent⟩

theorem Kept.killed (kept : Kept c k) (h : Killed k prc code k') : Kept c k' := by
  intro hprocess
  rw [h.type] at hprocess
  exact h.not_mem_freed hprocess (kept hprocess)

theorem KinInv.created (inv : KinInv k) (h : Created k isUser k') : KinInv k' := by
  have hidle : idle ≠ k.freePid := Nat.ne_of_lt inv.idle_lt
  refine ⟨h.freePid ▸ Nat.lt_succ_of_lt inv.idle_lt, ?_, h.nodup inv.nodup fun p hp => (inv.task p hp).1, ?_, ?_, ?_, ?_, ?_, ?_⟩
  · rw [h.proc idle hidle]
    exact inv.idle_parent
  · intro p hp
    rw [h.taskList] at hp
    refine h.forall_mem (P := fun p x => p < k'.freePid ∧ p ≠ idle ∧ x.died = false) (fun _ _ _ h => h)
      ⟨h.freePid ▸ Nat.lt_succ_self _, hidle.symm, rfl⟩ (fun p hp => ?_) p ((mem_append.mp hp).imp id mem_singleton.mp)
    obtain ⟨hlt, hlive⟩ := inv.task p hp
    exact ⟨hlt, h.freePid ▸ Nat.lt_succ_of_lt hlt, hlive⟩
  · rw [h.taskList]
    exact h.forall_lt (P := fun p x => p ≠ idle → x.died = false → p ∈ k.taskList ++ [k.freePid]) (fun _ _ _ h => h)
      (fun _ _ => mem_append_right _ mem_cons_self)
      fun p hlt hne hlive => mem_append_left _ (inv.listed p hlt hne hlive)
  · exact h.forall_lt (P := fun _ x => x.died → x.state = .zombie) (fun _ _ _ h => h) (fun h => by cases h) inv.zombie
  · rw [h.freed]
    exact h.forall_lt (P := fun p x => x.type = .thread → x.died → p ∈ k.freed) (fun _ _ _ h => h)
      (fun h => by cases h) inv.thread
  · intro p c hc
    rw [h.freePid]
    have hnew : ∀ {P : Prop} [Decidable P], c ∈ (if P then [k.freePid] else []) → c < k.freePid + 1 := by
      intro P _ hc
      split at hc
      · rw [mem_singleton.mp hc]
        exact Nat.lt_succ_self _
      · cases hc
    by_cases hp : p = k.freePid
    · rw [hp, h.new] at hc
      exact hnew hc
    rw [h.proc p hp] at hc
    rcases mem_append.mp hc with hc | hc
    · exact Nat.lt_succ_of_lt (inv.child p c hc)
    · exact hnew hc
  · intro p hle
    rw [h.freePid] at hle
    rw [h.freed, h.proc p (Nat.ne_of_gt hle)]
    exact inv.fresh p (Nat.le_of_succ_le hle)

theorem Kept.created (kept : Kept c k) (inv : KinInv k) (h : Created k isUser k') : Kept c k' := by
  intro hprocess
  rw [h.freed]
  by_cases hc : c = k.freePid
  · exact (inv.fresh c (Nat.le_of_eq hc.symm)).1
  · rw [h.proc c hc] at hprocess
    exact kept hprocess

theorem KinInv.changes (inv : KinInv k) (h : Changes k k') : KinInv k' := by
  refine h.invariant KinInv ?_ inv
  intro k k' inv h
  cases h with
  | touch h => exact inv.touched h
  | kill h => exact inv.killed h
  | wake hlive => exact inv.woken hlive

theorem KinInv.of_parent (inv : KinInv k) (h : (k.proc c).parent = some parent) :
    c < k.freePid ∧ c ≠ idle := by
  constructor
  · by_contra hle
    rw [(inv.fresh c (Nat.not_lt.mp hle)).2.2] at h
    cases h
  · rintro rfl
    rw [inv.idle_parent] at h
    cases h

theorem KinInv.step (inv : KinInv k) (h : Step k l k') : KinInv k' := by
  rcases h.family with ⟨isUser, hc⟩ | ⟨k₁, aspace, hc, rfl⟩ | ⟨child, -, hkin, rfl⟩ | hchanges
  · exact inv.created hc
  · refine (inv.created hc).cloned (hc.freePid ▸ Nat.lt_succ_self _) ?_
    rw [hc.new]
    rfl
  · refine inv.reaped ?_
    rcases hkin with hparent | hmem
    · exact (inv.of_parent hparent).1
    · exact inv.child _ child hmem
  · exact inv.changes hchanges

theorem woken_kin (k : Kernel) (prc q : Nat) :
    ((k.woken prc).proc q).type = (k.proc q).type ∧ ((k.woken prc).proc q).died = (k.proc q).died := by
  have := modify_proc k prc q fun p => { p with state := .running }
  unfold Kernel.woken
  rw [this]
  split <;> exact ⟨rfl, rfl⟩

theorem Kept.changes (kept : Kept c k) (h : Changes k k') : Kept c k' := by
  refine h.invariant (Kept c) ?_ kept
  intro k k' kept h
  cases h with
  | touch h =>
    intro hprocess
    rw [h.freed]
    exact kept ((h.proc c).type.symm.trans hprocess)
  | kill h => exact kept.killed h
  | wake hlive => exact fun hprocess => kept ((woken_kin ..).1.symm.trans hprocess)

/-- A call that does not take `c` from its parent. -/
def Unwaited (c : Nat) (k : Kernel) (l : Call) (k' : Kernel) : Prop := Step k l k' ∧ l ≠ .waitpid c

theorem Kept.step (kept : Kept c k) (inv : KinInv k) (h : Unwaited c k l k') : Kept c k' := by
  obtain ⟨hstep, hl⟩ := h
  rcases hstep.family with ⟨isUser, hc⟩ | ⟨k₁, aspace, hc, rfl⟩ | ⟨child, rfl, -, rfl⟩ | hchanges
  · exact kept.created inv hc
  · intro hprocess
    by_cases hp : c = k.freePid
    · exact hc.freed ▸ (inv.fresh c (Nat.le_of_eq hp.symm)).1
    unfold Kernel.cloned at hprocess
    rw [modify_of_ne _ _ _ _ hp] at hprocess
    have hkept : Kept c k₁ := kept.created inv hc
    exact hkept hprocess
  · intro hprocess hmem
    have hne : c ≠ child := fun h => hl (h ▸ rfl)
    refine kept ?_ ((mem_cons.mp hmem).resolve_left hne)
    have : ((k.modify k.caller fun p => { p with childQueue := p.childQueue.erase child }).proc c).type = .process :=
      hprocess
    rw [modify_proc] at this
    split at this <;> exact this
  · exact kept.changes hchanges

structure Dead (c : Nat) (k : Kernel) : Prop where
  lt : c < k.freePid
  died : (k.proc c).died = true

theorem Dead.changes (dead : Dead c k) (h : Changes k k') : Dead c k' := by
  refine h.invariant (Dead c) ?_ dead
  intro k k' dead h
  cases h with
  | touch h => exact ⟨h.freePid ▸ dead.lt, (h.proc c).died.trans dead.died⟩
  | kill h =>
    rename_i prc code
    refine ⟨h.freePid ▸ dead.lt, ?_⟩
    by_cases hc : c = prc
    · rw [hc]
      exact h.dead.died
    · exact (h.core c hc).died.trans dead.died
  | wake hlive => exact ⟨dead.lt, (woken_kin ..).2.trans dead.died⟩

theorem Dead.reaped (dead : Dead c k) (r child : Nat) : Dead c (k.reap r child).2 := by
  refine ⟨dead.lt, ?_⟩
  show ((k.modify r fun p => { p with childQueue := p.childQueue.erase child }).proc c).died
  rw [modify_proc]
  split <;> exact dead.died

theorem Dead.step (dead : Dead c k) (h : Step k l k') : Dead c k' := by
  have hne : c ≠ k.freePid := Nat.ne_of_lt dead.lt
  rcases h.family with ⟨isUser, hc⟩ | ⟨k₁, aspace, hc, rfl⟩ | ⟨child, -, -, rfl⟩ | hchanges
  · refine ⟨hc.freePid ▸ Nat.lt_succ_of_lt dead.lt, ?_⟩
    rw [hc.proc c hne]
    exact dead.died
  · refine ⟨Nat.lt_of_lt_of_eq (Nat.lt_succ_of_lt dead.lt) hc.freePid.symm, ?_⟩
    unfold Kernel.cloned
    rw [modify_of_ne _ _ _ _ hne, hc.proc c hne]
    exact dead.died
  · exact dead.reaped ..
  · exact dead.changes hchanges

end Steps

variable {k₀ k k' now : Kernel} {c : Nat}

theorem Booted.kinInv (h : Booted k) : KinInv k := by
  refine ⟨h.freePid ▸ Nat.one_pos, by rw [h.proc_idle]; rfl, h.taskList ▸ nodup_nil, ?_, ?_, ?_, ?_, ?_, ?_⟩
  · rw [h.taskList]
    intro p hp
    cases hp
  · intro p hlt hne
    exact absurd (h.eq_idle hlt) hne
  · intro p hlt hdied
    rw [h.proc_eq hlt] at hdied
    cases hdied
  · intro p hlt htype
    rw [h.proc_eq hlt] at htype
    cases htype
  · intro p c hc
    by_cases hp : p = idle
    · rw [hp, h.proc_idle] at hc
      cases hc
    · rw [(h.fresh p hp).2.2] at hc
      cases hc
  · intro p hle
    have hp : p ≠ idle := by
      rintro rfl
      rw [h.freePid] at hle
      exact Nat.not_succ_le_zero _ hle
    rw [h.freed]
    exact ⟨not_mem_nil, (h.fresh p hp).1, (h.fresh p hp).2.1⟩

theorem KinInv.run {calls : List Call} (inv : KinInv k) (h : Run Step k calls k') : KinInv k' :=
  h.invariant KinInv inv fun inv h => inv.step h

theorem KinInv.threadGetThread (inv : KinInv k) (hlt : c < k.freePid) (hne : c ≠ idle) :
    k.threadGetThread c = some (if (k.proc c).died then idle else c) := by
  unfold Kernel.threadGetThread
  rw [if_neg (by omega), Int.toNat_natCast]
  cases hd : (k.proc c).died with
  | false => rw [if_pos (inv.listed c hlt hne hd), if_neg Bool.false_ne_true]
  | true =>
    have hgone : c ∉ k.taskList := by
      intro hmem
      rw [(inv.task c hmem).2.2] at hd
      cases hd
    rw [if_neg hgone, if_pos rfl]

theorem KinInv.waitpidChild (inv : KinInv k) (hlt : c < k.freePid) (hne : c ≠ idle) (parent : Nat) :
    k.waitpidChild parent c = if (k.proc c).died = false ∧ (k.proc c).parent = some parent then some c else none := by
  unfold Kernel.waitpidChild
  rw [inv.threadGetThread hlt hne]
  cases hd : (k.proc c).died with
  | false => simp
  | true => simp [inv.idle_parent]

/-- `sys_waitpid(c, &status)`, made in `k`, returns `c` and its exit code as soon as it looks in the state
    `now`; the child is freed once, and every later call for `c` returns `0`. -/
def Waited (k now : Kernel) (c : Nat) : Prop :=
  ∃ k', k.sysWaitpid now c = some (c, some (now.proc c).exitCode, k') ∧ k'.freed.count c = 1 ∧
    ∀ calls later now', Run Step k' calls later → later.sysWaitpid now' c = some (0, none, later)

theorem Waited.of_alive (inv : KinInv k) (inv' : KinInv now) (kept : Kept c now)
    (hparent : (k.proc c).parent = some k.caller) (hlive : (k.proc c).died = false) (dead : Dead c now)
    (hstarted : (now.proc c).started) (htype : (now.proc c).type = .process) : Waited k now c := by
  obtain ⟨hlt, hne⟩ := inv.of_parent hparent
  have hpoll : now.waitpidPoll k.caller c = some (now.reap k.caller c) :=
    if_pos ⟨hstarted, dead.died, inv'.zombie c dead.lt dead.died⟩
  refine ⟨(now.reap k.caller c).2, ?_, ?_, fun calls later now' hrun => ?_⟩
  · unfold sysWaitpid
    rw [inv.waitpidChild hlt hne, if_pos ⟨hlive, hparent⟩]
    simp only [hpoll]
    rfl
  · show (c :: now.freed).count c = 1
    rw [count_cons_self, count_eq_zero_of_not_mem (kept htype)]
  · have hreap : KinInv (now.reap k.caller c).2 := inv'.reaped dead.lt
    have inv'' := hreap.run hrun
    have dead' : Dead c later := hrun.invariant (Dead c) (dead.reaped ..) fun dead h => dead.step h
    unfold sysWaitpid
    rw [inv''.waitpidChild dead'.lt hne, if_neg]
    rintro ⟨hlive, -⟩
    rw [dead'.died] at hlive
    cases hlive

/-- The call returns a child exactly if that is alive when the call is made, has run when it dies, and is
    a process of its own. -/
theorem waitpid_iff_alive {before meanwhile : List Call} (hinit : threadInit = .ok k₀)
    (hbefore : Run (Unwaited c) k₀ before k) (hparent : (k.proc c).parent = some k.caller)
    (hmeanwhile : Run (Unwaited c) k meanwhile now) (hdied : (now.proc c).died = true) :
    Waited k now c ↔
      (k.proc c).died = false ∧ (now.proc c).started = true ∧ (now.proc c).type = .process := by
  have hboot := threadInit_ok hinit
  have hstep : ∀ {k l k'}, KinInv k ∧ Kept c k → Unwaited c k l k' → KinInv k' ∧ Kept c k' :=
    fun inv h => ⟨inv.1.step h.1, inv.2.step inv.1 h⟩
  have hstart : KinInv k₀ ∧ Kept c k₀ := ⟨hboot.kinInv, fun _ => by rw [hboot.freed]; exact not_mem_nil⟩
  obtain ⟨inv, kept⟩ := hbefore.invariant (fun k => KinInv k ∧ Kept c k) hstart hstep
  obtain ⟨inv', kept'⟩ := hmeanwhile.invariant (fun k => KinInv k ∧ Kept c k) ⟨inv, kept⟩ hstep
  obtain ⟨hlt, hne⟩ := inv.of_parent hparent
  have dead : Dead c now :=
    ⟨hmeanwhile.invariant (c < ·.freePid) hlt fun hlt h => Nat.lt_of_lt_of_le hlt h.1.freePid_le, hdied⟩
  constructor
  · rintro ⟨k', hcall, hcount, -⟩
    unfold sysWaitpid at hcall
    rw [inv.waitpidChild hlt hne] at hcall
    by_cases hlive : (k.proc c).died = false
    · rw [if_pos ⟨hlive, hparent⟩] at hcall
      obtain ⟨⟨status, k₁⟩, hpoll, hend⟩ := map_eq_some_iff.mp hcall
      cases hend
      obtain ⟨hstarted, -, hreap⟩ := waitpidPoll_some hpoll
      refine ⟨hlive, hstarted, ?_⟩
      have hfreed : (c :: now.freed).count c = 1 := congrArg (·.2.freed.count c) hreap ▸ hcount
      rw [count_cons_self] at hfreed
      cases htype : (now.proc c).type with
      | process => rfl
      | thread =>
        have := count_pos_iff.mpr (inv'.thread c dead.lt htype hdied)
        omega
    · rw [if_neg fun h => hlive h.1] at hcall
      cases hcall
  · rintro ⟨hlive, hstarted, htype⟩
    exact .of_alive inv inv' kept' hparent hlive dead hstarted htype

def unwaitedCheck (c : Nat) (_ : Kernel) (l : Call) (_ : Kernel) : Bool :=
  match l with
  | .waitpid c' => c' ≠ c
  | _ => true

theorem unwaited_of_check {l : Call} (h : Step k l k' ∧ unwaitedCheck c k l k') : Unwaited c k l k' := by
  refine ⟨h.1, ?_⟩
  rintro rfl
  simp [unwaitedCheck] at h

/-- Init waits for process 2 while that still runs. -/
theorem waitpid_iff_alive_exit :
    ∃ k₀ k now, threadInit = .ok k₀ ∧ Run (Unwaited 2) k₀ (twoTasks ++ slice 1) k ∧
      Run (Unwaited 2) k (slice 2 ++ [.kill 2 7 true]) now ∧ (now.proc 2).exitCode = 7 * 256 ∧ Waited k now 2 := by
  have heval : (threadInit.toOption.bind (Run.execAll exec (unwaitedCheck 2) · (twoTasks ++ slice 1))).bind (fun k =>
      (Run.execAll exec (unwaitedCheck 2) k (slice 2 ++ [.kill 2 7 true])).map fun now =>
        ((k.proc 2).parent = some k.caller ∧ (k.proc 2).died = false : Bool) &&
          ((now.proc 2).died ∧ (now.proc 2).started ∧ (now.proc 2).type = .process ∧
            (now.proc 2).exitCode = 7 * 256 : Bool)) = some true := by decide +kernel
  obtain ⟨k, hk, hend⟩ := bind_eq_some_iff.mp heval
  obtain ⟨k₀, hinit, hk⟩ := bind_eq_some_iff.mp hk
  obtain ⟨now, hnow, hend⟩ := map_eq_some_iff.mp hend
  simp only [Bool.and_eq_true, decide_eq_true_eq] at hend
  obtain ⟨⟨hparent, hlive⟩, hdied, hstarted, htype, hcode⟩ := hend
  have hbefore := (Run.of_execAll step_of_exec hk).mono unwaited_of_check
  have hmeanwhile := (Run.of_execAll step_of_exec hnow).mono unwaited_of_check
  exact ⟨k₀, k, now, toOption_eq_some hinit, hbefore, hmeanwhile, hcode,
    (waitpid_iff_alive (toOption_eq_some hinit) hbefore hparent hmeanwhile hdied).mpr ⟨hlive, hstarted, htype⟩⟩

/-- Process 2 exits first: the call returns `0`, stores nothing and leaves the child. -/
theorem waitpid_misses_dead :
    ∃ k₀ k, threadInit = .ok k₀ ∧ Run (Unwaited 2) k₀ (twoTasks ++ [.kill 2 7 true, .schedule (.switched 1)]) k ∧
      (k.proc 2).parent = some k.caller ∧ (k.proc 2).died = true ∧ (k.proc 2).started = true ∧ 2 ∉ k.freed ∧
      ∀ now, k.sysWaitpid now 2 = some (0, none, k) := by
  have heval : (threadInit.toOption.bind (Run.execAll exec (unwaitedCheck 2) ·
      (twoTasks ++ [.kill 2 7 true, .schedule (.switched 1)]))).any (fun k =>
        (k.proc 2).parent = some k.caller ∧ (k.proc 2).died ∧ (k.proc 2).started ∧ 2 ∉ k.freed ∧
          k.waitpidChild k.caller 2 = none) = true := by decide +kernel
  obtain ⟨k₀, k, hinit, hrun, hend⟩ := Run.of_any step_of_exec unwaited_of_check heval
  obtain ⟨hparent, hdied, hstarted, hfreed, hchild⟩ := of_decide_eq_true hend
  refine ⟨k₀, k, toOption_eq_some hinit, hrun, hparent, hdied, hstarted, hfreed, fun now => ?_⟩
  unfold sysWaitpid
  rw [show k.waitpidChild k.caller (2 : Nat) = none from hchild]

end Kernel
end HelinKern
