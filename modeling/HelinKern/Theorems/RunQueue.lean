import Mathlib.Data.List.Perm.Subperm
import HelinKern.Theorems.Syscall

/-! The run queue: as long as the scheduler itself kills nobody, every live process waits in it exactly
    once. -/

namespace HelinKern
variable {isUser : Bool} {k k' : Kernel}

namespace Kernel
open RingBuffer Lts List Option

def alive (k : Kernel) : Nat := (List.range k.freePid).countP fun p => !(k.proc p).died

def idleCopies (p : Process) : Nat := if p.state = .running ∧ ¬p.died then 2 else 1

def calm (k : Kernel) : Prop := ∀ p < k.freePid, (k.proc p).died = false → fatalHead (k.proc p) = false

/-- `q` is the run queue of `k`: the live processes, each once, and copies of the idle process. -/
structure QueueInv (k : Kernel) (q : List Nat) : Prop where
  holds : k.priority1.Holds q
  size : k.priority1.size = 1000
  once : ∀ p, p ≠ idle → p < k.freePid → (k.proc p).died = false → q.count p = 1
  live : ∀ p ∈ q, p < k.freePid ∧ (p ≠ idle → (k.proc p).died = false)
  copies : q.count idle ≤ idleCopies (k.proc idle)
  task : ∀ p ∈ k.taskList, p ≠ idle ∧ p < k.freePid ∧ (k.proc p).died = false
  nodup : k.taskList.Nodup
  state : ∀ p, p ≠ idle → (k.proc p).died = false → p < k.freePid → (k.proc p).state = .running
  plain : ∀ p < k.freePid, (k.proc p).type = .process ∧ (k.proc p).priority = 1
  running : ∀ p, k.runningTask = some p → p < k.freePid
  idle_lt : idle < k.freePid

namespace QueueInv
variable {k k' : Kernel} {q q' : List Nat}

section
variable (inv : QueueInv k q)
include inv

theorem length_le : q.length + (if (k.proc idle).died then 0 else 1) ≤ k.alive + q.count idle := by
  let others := q.filter (· ≠ idle)
  have hmem : ∀ p ∈ others, p ≠ idle ∧ p < k.freePid ∧ (k.proc p).died = false := by
    intro p hp
    obtain ⟨hq, hne⟩ := mem_filter.mp hp
    have hne : p ≠ idle := by simpa using hne
    obtain ⟨hlt, hlive⟩ := inv.live p hq
    exact ⟨hne, hlt, hlive hne⟩
  have hnodup : others.Nodup := by
    refine nodup_iff_count.mpr fun p => ?_
    by_cases hp : p ∈ others
    · obtain ⟨hne, hlt, hlive⟩ := hmem p hp
      rw [← inv.once p hne hlt hlive]
      exact filter_sublist.count_le _
    · rw [count_eq_zero_of_not_mem hp]
      exact Nat.zero_le 1
  have hsplit : q.length = others.length + q.count idle := by
    rw [length_eq_countP_add_countP (· ≠ idle), countP_eq_length_filter]
    congr 1
    exact countP_congr fun p _ => by simp
  have halive : k.alive = ((List.range k.freePid).filter fun p => !(k.proc p).died).length :=
    countP_eq_length_filter
  have hsub : others ⊆ ((List.range k.freePid).filter fun p => !(k.proc p).died).erase idle := by
    intro p hp
    obtain ⟨hne, hlt, hlive⟩ := hmem p hp
    rw [mem_erase_of_ne hne]
    simp [hlt, hlive]
  have hle := hnodup.length_le_of_subset hsub
  cases hd : (k.proc idle).died with
  | true =>
    have := Nat.le_trans hle (length_erase_le ..)
    simp only [if_true]
    omega
  | false =>
    have hidle : idle ∈ (List.range k.freePid).filter fun p => !(k.proc p).died := by simp [inv.idle_lt, hd]
    have := length_pos_of_mem hidle
    rw [length_erase_of_mem hidle] at hle
    simp only [Bool.false_eq_true, if_false]
    omega

theorem room (halive : k.alive < 998) : q.length + 1 < k.priority1.size := by
  have hlen := inv.length_le
  have hcopies := inv.copies
  unfold idleCopies at hcopies
  rw [inv.size]
  cases hd : (k.proc idle).died with
  | true =>
    simp only [hd, not_true, and_false, if_false] at hlen hcopies
    omega
  | false =>
    simp only [hd, Bool.false_eq_true, if_false] at hlen
    split at hcopies <;> omega

theorem of_life (hholds : k'.priority1.Holds q') (hsize : k'.priority1.size = k.priority1.size)
    (hpid : k'.freePid = k.freePid) (hlist : k'.taskList = k.taskList)
    (hrun : ∀ p, k'.runningTask = some p → p < k.freePid) (hlife : ∀ p, SameLife (k.proc p) (k'.proc p))
    (hcount : ∀ p, p ≠ idle → p < k.freePid → (k.proc p).died = false → q'.count p = q.count p)
    (hle : ∀ p, q'.count p ≤ q.count p) : QueueInv k' q' := by
  have hsub : ∀ p ∈ q', p ∈ q := fun p hp =>
    count_pos_iff.mp (Nat.lt_of_lt_of_le (count_pos_iff.mpr hp) (hle p))
  refine ⟨hholds, hsize.trans inv.size, ?_, ?_, ?_, ?_, hlist ▸ inv.nodup, ?_, ?_, hpid ▸ hrun, hpid ▸ inv.idle_lt⟩
  · intro p hne hlt hlive
    rw [hpid] at hlt
    rw [(hlife p).died] at hlive
    rw [hcount p hne hlt hlive]
    exact inv.once p hne hlt hlive
  · intro p hp
    rw [hpid, (hlife p).died]
    exact inv.live p (hsub p hp)
  · unfold idleCopies
    rw [(hlife idle).state, (hlife idle).died]
    exact Nat.le_trans (hle idle) inv.copies
  · intro p hp
    rw [hpid, (hlife p).died]
    exact inv.task p (hlist ▸ hp)
  · intro p hne hlive hlt
    rw [hpid] at hlt
    rw [(hlife p).died] at hlive
    rw [(hlife p).state]
    exact inv.state p hne hlive hlt
  · intro p hlt
    rw [hpid] at hlt
    rw [(hlife p).type, (hlife p).priority]
    exact inv.plain p hlt

theorem alive_created (hc : Created k isUser k') : k'.alive = k.alive + 1 := by
  have hnew : (k'.proc k.freePid).died = false := by
    rw [hc.new_of_ne fun h => Nat.lt_irrefl _ (inv.running _ h)]
    rfl
  unfold alive
  rw [hc.freePid, range_succ, countP_append, countP_singleton]
  simp only [hnew]
  congr 1
  refine countP_congr fun p hp => ?_
  rw [hc.proc p (Nat.ne_of_lt (mem_range.mp hp))]

theorem create (hc : Created k isUser k') (halive : k'.alive < 999) : QueueInv k' (q ++ [k.freePid]) := by
  have hroom := inv.room (by have := inv.alive_created hc; omega)
  have hfresh : k.freePid ∉ q := fun h => Nat.lt_irrefl _ (inv.live _ h).1
  have hidle : idle ≠ k.freePid := Nat.ne_of_lt inv.idle_lt
  refine ⟨?_, ?_, fun p hne hlt => ?_, ?_, ?_, ?_, hc.nodup inv.nodup fun p hp => (inv.task p hp).2.1,
    fun p hne hlive hlt => ?_, ?_, hc.running_lt inv.running, hc.freePid ▸ Nat.lt_succ_of_lt inv.idle_lt⟩
  · rw [hc.priority1]
    exact inv.holds.write_of_room hroom
  · rw [hc.priority1, write_size, inv.size]
  · refine hc.forall_lt (P := fun p x => p ≠ idle → x.died = false → (q ++ [k.freePid]).count p = 1) (fun _ _ _ h => h)
      (fun _ _ => ?_) (fun p hlt hne hlive => ?_) p hlt hne
    · rw [count_append, count_eq_zero_of_not_mem hfresh, count_singleton_self]
    · rw [count_append, inv.once p hne hlt hlive]
      simp [Nat.ne_of_gt hlt]
  · intro p hp
    refine hc.forall_mem (P := fun p x => p < k'.freePid ∧ (p ≠ idle → x.died = false)) (fun _ _ _ h => h)
      ⟨hc.freePid ▸ Nat.lt_succ_self _, fun _ => rfl⟩ (fun p hp => ?_) p ((mem_append.mp hp).imp id mem_singleton.mp)
    obtain ⟨hlt, hlive⟩ := inv.live p hp
    exact ⟨hlt, hc.freePid ▸ Nat.lt_succ_of_lt hlt, hlive⟩
  · unfold idleCopies
    rw [hc.proc idle hidle, count_append, count_singleton]
    simp only [beq_iff_eq, Ne.symm hidle]
    exact inv.copies
  · intro p hp
    rw [hc.taskList] at hp
    refine hc.forall_mem (P := fun p x => p ≠ idle ∧ p < k'.freePid ∧ x.died = false) (fun _ _ _ h => h)
      ⟨hidle.symm, hc.freePid ▸ Nat.lt_succ_self _, rfl⟩ (fun p hp => ?_) p ((mem_append.mp hp).imp id mem_singleton.mp)
    obtain ⟨hne, hlt, hlive⟩ := inv.task p hp
    exact ⟨hlt, hne, hc.freePid ▸ Nat.lt_succ_of_lt hlt, hlive⟩
  · exact hc.forall_lt (P := fun p x => p ≠ idle → x.died = false → x.state = .running) (fun _ _ _ h => h) (fun _ _ => rfl)
      (fun p hlt hne hlive => inv.state p hne hlive hlt) p hlt hne hlive
  · exact hc.forall_lt (P := fun _ x => x.type = .process ∧ x.priority = 1) (fun _ _ _ h => h) ⟨rfl, rfl⟩ inv.plain

theorem kill {prc : Nat} {code : Int} (hprc : prc ∈ k.taskList ∨ prc = idle)
    (hk : Killed k prc code k') : QueueInv k' (q.erase prc) := by
  have hlt : prc < k.freePid := by
    rcases hprc with h | rfl
    · exact (inv.task prc h).2.1
    · exact inv.idle_lt
  obtain ⟨htype, hprio⟩ := inv.plain prc hlt
  have hqueue : k'.priority1 = k.priority1.remove prc := by
    rcases hk.queue with ⟨h0, -⟩ | ⟨-, -, h⟩
    · rw [hprio] at h0
      cases h0
    · exact h
  have hdead : (k'.proc prc).died := hk.dead.died
  have hold : ∀ p, p ≠ prc → SameLife (k.proc p) (k'.proc p) := fun p hp => (hk.core p hp).toSameLife
  have hgone : prc ≠ idle → prc ∉ q.erase prc := by
    intro hne hmem
    have hlive := (inv.task prc (hprc.resolve_right hne)).2.2
    have hpos := count_pos_iff.mpr hmem
    rw [count_erase_self, inv.once prc hne hlt hlive] at hpos
    exact Nat.lt_irrefl _ hpos
  refine ⟨?_, ?_, ?_, ?_, ?_, ?_, hk.nodup inv.nodup, ?_, ?_, hk.running_lt inv.idle_lt inv.running, hk.freePid ▸ inv.idle_lt⟩
  · rw [hqueue]
    exact inv.holds.remove
  · rw [hqueue, remove_size, inv.size]
  · intro p hne hltp hlive
    rw [hk.freePid] at hltp
    have hp := hk.ne_of_live hlive
    rw [(hold p hp).died] at hlive
    rw [count_erase_of_ne hp, inv.once p hne hltp hlive]
  · intro p hp
    obtain ⟨hltp, hlive⟩ := inv.live p (mem_of_mem_erase hp)
    rw [hk.freePid]
    refine ⟨hltp, fun hne => ?_⟩
    have hpp : p ≠ prc := by
      rintro rfl
      exact hgone hne hp
    rw [(hold p hpp).died]
    exact hlive hne
  · by_cases hidle : prc = idle
    · subst hidle
      have hle := inv.copies
      unfold idleCopies at hle ⊢
      rw [if_neg fun h => h.2 hdead, count_erase_self]
      split at hle <;> omega
    · unfold idleCopies
      rw [(hold idle (Ne.symm hidle)).state, (hold idle (Ne.symm hidle)).died, count_erase_of_ne (Ne.symm hidle)]
      exact inv.copies
  · intro p hp
    obtain ⟨hpp, hp⟩ := (hk.mem_taskList inv.nodup).mp hp
    rw [hk.freePid, (hold p hpp).died]
    exact inv.task p hp
  · intro p hne hlive hltp
    rw [hk.freePid] at hltp
    have hp := hk.ne_of_live hlive
    rw [(hold p hp).died] at hlive
    rw [(hold p hp).state]
    exact inv.state p hne hlive hltp
  · intro p hltp
    rw [hk.freePid] at hltp
    by_cases hp : p = prc
    · subst hp
      exact ⟨hk.dead.type.trans htype, hk.dead.priority.trans hprio⟩
    · rw [(hold p hp).type, (hold p hp).priority]
      exact inv.plain p hltp

theorem switched {p : Nat} (hlt : p < k.freePid) : QueueInv { k.takeSignal p with runningTask := some p } q := by
  obtain ⟨hlist, -, hqueue, hpid, -⟩ := takeSignal_same k p
  refine inv.of_life ?_ ?_ hpid hlist ?_ (takeSignal_life k p) (fun _ _ _ _ => rfl) (fun _ => Nat.le_refl _)
  · exact (congrArg (·.Holds q) hqueue).mpr inv.holds
  · exact congrArg RingBuffer.size hqueue
  · intro p' hp'
    cases hp'
    exact hlt

theorem pickTask {picked : Option Nat} (h : k.pickTask = .ok (picked, k')) :
    ∃ q', Requeued k q' k' ∧ (∀ x, q'.count x + (if picked = some x then 1 else 0) ≤ q.count x) ∧
      (∀ x, x ≠ idle → (k.proc x).died = false → q'.count x + (if picked = some x then 1 else 0) = q.count x) ∧
      ∀ x, picked = some x → (k.proc x).died = false := by
  rcases pickTask_ok inv.holds h with ⟨rfl, rfl, rfl⟩ | ⟨x, rest, rfl, rfl, hre, hlive, -⟩ | ⟨x, rest, q', rfl, hre, hp, hdrop⟩
  · exact ⟨[], ⟨_, inv.holds, rfl, rfl⟩, fun x => by simp, fun x _ _ => by simp, fun x hx => by simp at hx⟩
  · have hcount : ∀ y, rest.count y + (if some x = some y then 1 else 0) = (x :: rest).count y := by
      intro y
      rw [count_cons]
      simp
    refine ⟨rest, hre, fun y => Nat.le_of_eq (hcount y), fun y _ _ => hcount y, ?_⟩
    rintro y hy
    cases hy
    exact hlive
  · -- A live process is dropped from the front only if it is the idle one.
    have hidle : x = idle := by
      by_contra hne
      obtain ⟨hlt, hlive⟩ := inv.live x mem_cons_self
      rw [inv.state x hne (hlive hne) hlt, hlive hne] at hdrop
      simp at hdrop
    refine ⟨q', hre, fun y => Nat.le_trans (hp.le y) (count_le_count_cons ..), fun y hne hlive => ?_,
      fun y hy => (hp.ready y hy).1⟩
    rw [hp.live y hlive, count_cons_of_ne]
    rw [hidle]
    exact hne.symm

theorem schedule {r : Scheduled} (hcalm : calm k) (h : k.threadSchedule = .ok (k', r)) : ∃ q', QueueInv k' q' := by
  rcases threadSchedule_ok h with ⟨p, hrun, -, -, rfl⟩ | ⟨p, hrun, hlive, h⟩ | ⟨hpick, -⟩ | ⟨p, k₁, hpick, h⟩
  · exact ⟨q, inv.of_life inv.holds rfl rfl rfl (fun p' hp' => inv.running p' hp')
      (fun p' => .modify k p p' _ ⟨rfl, rfl, rfl, rfl⟩) (fun _ _ _ _ => rfl) (fun _ => Nat.le_refl _)⟩
  · have hlt := inv.running p hrun
    rw [processSignals_of_not_fatal _ (hcalm p hlt hlive)] at h
    cases h
    exact ⟨q, inv.switched hlt⟩
  · obtain ⟨q', ⟨ring, hring, hsize, rfl⟩, hle, heq, -⟩ := inv.pickTask hpick
    exact ⟨q', inv.of_life hring hsize rfl rfl inv.running (fun _ => ⟨rfl, rfl, rfl, rfl⟩)
      (fun x hne _ hlive => heq x hne hlive) hle⟩
  · obtain ⟨q', ⟨ring, hring, hsize, rfl⟩, hle, heq, hpicked⟩ := inv.pickTask hpick
    have hlive := hpicked p rfl
    have hmem : p ∈ q := by
      refine count_pos_iff.mp (Nat.lt_of_lt_of_le ?_ (hle p))
      rw [if_pos rfl]
      exact Nat.succ_pos _
    have hlt := (inv.live p hmem).1
    have hkeep : (if (k.proc p).state.unschedulable then idle else p) = p := by
      by_cases hp : p = idle
      · rw [hp, ite_self]
      · rw [inv.state p hp hlive hlt]
        rfl
    unfold switchToPopped at h
    simp only [hkeep] at h
    have horphan : orphanThread { k with priority1 := ring } p = false := by simp [orphanThread, (inv.plain p hlt).1]
    obtain ⟨-, rfl⟩ := switchTask_of_not_fatal (k := { k with priority1 := ring }) (hcalm p hlt hlive) horphan h
    have hcount : ∀ x, (q' ++ [p]).count x = q'.count x + if some p = some x then 1 else 0 := by
      intro x
      rw [count_append, count_singleton]
      simp
    have hroom : q'.length + 1 < ring.size := by
      have hsub : (q' ++ [p]).Subperm q := subperm_ext_iff.mpr fun x _ => hcount x ▸ hle x
      have := hsub.length_le
      rw [length_append, length_singleton] at this
      have := inv.holds.room
      omega
    have hpushed : QueueInv ({ k with priority1 := ring }.pushed p) (q' ++ [p]) :=
      inv.of_life (hring.write_of_room hroom) ((write_size ..).trans hsize) rfl rfl inv.running
        (pushed_life { k with priority1 := ring } p) (fun x hne _ hl => (hcount x).trans (heq x hne hl))
        fun x => hcount x ▸ hle x
    exact ⟨q' ++ [p], hpushed.switched hlt⟩

end

/-! ### `sys_kill` -/

theorem forceSwitch (inv : QueueInv k q) : QueueInv k.threadForceSwitch q := by
  have hproc := threadForceSwitch_proc k
  obtain ⟨proc, hsame⟩ := threadForceSwitch_same k
  rw [hsame] at hproc ⊢
  refine inv.of_life inv.holds rfl rfl rfl inv.running (fun p => ?_) (fun _ _ _ _ => rfl) fun _ => Nat.le_refl _
  obtain ⟨quota, hp⟩ := hproc p
  rw [hp]
  exact ⟨rfl, rfl, rfl, rfl⟩

theorem enqueueSignal (inv : QueueInv k q) (prc num : Nat) : QueueInv (k.enqueueSignal prc num) q :=
  inv.of_life inv.holds rfl rfl rfl inv.running (fun p => enqueueSignal_life k prc num p) (fun _ _ _ _ => rfl)
    fun _ => Nat.le_refl _

theorem woken (inv : QueueInv k q) (halive : k.alive < 999) (hlive : (k.proc idle).died = false)
    (hstate : (k.proc idle).state ≠ .running) : QueueInv (k.woken idle) (q ++ [idle]) := by
  have hcopies : q.count idle ≤ 1 := by
    have := inv.copies
    unfold idleCopies at this
    rwa [if_neg fun h => hstate h.1] at this
  have hroom : q.length + 1 < k.priority1.size := by
    have := inv.length_le
    rw [hlive, if_neg Bool.false_ne_true] at this
    rw [inv.size]
    omega
  have hold : ∀ p ≠ idle, (k.woken idle).proc p = k.proc p :=
    fun p hp => modify_of_ne k idle p (fun p => { p with state := .running }) hp
  refine ⟨inv.holds.write_of_room hroom, (write_size ..).trans inv.size, ?_, ?_, ?_, ?_, inv.nodup, ?_, ?_, inv.running,
    inv.idle_lt⟩
  · intro p hne hlt hp
    rw [hold p hne] at hp
    rw [count_append, inv.once p hne hlt hp]
    simp [Ne.symm hne]
  · intro p hp
    refine ⟨?_, fun hne => ?_⟩
    · rcases mem_append.mp hp with hp | hp
      · exact (inv.live p hp).1
      · rw [mem_singleton.mp hp]
        exact inv.idle_lt
    · rw [hold p hne]
      rcases mem_append.mp hp with hp | hp
      · exact (inv.live p hp).2 hne
      · exact absurd (mem_singleton.mp hp) hne
  · unfold idleCopies
    rw [if_pos ⟨rfl, Bool.eq_false_iff.mp hlive⟩, count_append, count_singleton_self]
    omega
  · intro p hp
    obtain ⟨hne, hlt, hl⟩ := inv.task p hp
    rw [hold p hne]
    exact ⟨hne, hlt, hl⟩
  · intro p hne hl hlt
    rw [hold p hne] at hl ⊢
    exact inv.state p hne hl hlt
  · intro p hlt
    by_cases hp : p = idle
    · rw [hp]
      exact inv.plain idle inv.idle_lt
    · rw [hold p hp]
      exact inv.plain p hlt

theorem sysKill {pid sig res : Int} (inv : QueueInv k q) (halive : k.alive < 999)
    (h : k.sysKill pid sig = .ok (res, k')) : ∃ q', QueueInv k' q' := by
  rcases sysKill_ok h with ⟨rfl, -⟩ | ⟨prc, hprc, hlive, -, ⟨-, hk⟩ | ⟨-, -, -, hsend⟩⟩
  · exact ⟨q, inv⟩
  · exact ⟨_, inv.kill (threadGetThread_some hprc) hk⟩
  · obtain ⟨k₁, k₂, hwake, hkill, rfl⟩ := sendSignal_ok hsend
    have hsig := inv.enqueueSignal prc (sig % 4294967296).toNat
    have hsame := enqueueSignal_life k prc (sig % 4294967296).toNat prc
    have hk₁ : k₁.taskList = k.taskList ∧ ∃ q₁, QueueInv k₁ q₁ := by
      rcases hwake with ⟨rfl, -⟩ | ⟨rfl, hrun, -⟩
      · exact ⟨rfl, q, hsig⟩
      have hidle : prc = idle := by
        refine (threadGetThread_some hprc).resolve_left fun hmem => hrun ?_
        obtain ⟨hne, hlt, hl⟩ := inv.task prc hmem
        exact inv.state prc hne hl hlt
      subst hidle
      refine ⟨rfl, _, hsig.woken ?_ (hsame.died.trans hlive) (hsame.state ▸ hrun)⟩
      refine Nat.lt_of_le_of_lt (Nat.le_of_eq (countP_congr fun p _ => ?_)) halive
      rw [(enqueueSignal_life k idle _ p).died]
    obtain ⟨hlist, q₁, hq₁⟩ := hk₁
    rcases hkill with rfl | ⟨-, -, hkill⟩
    · exact ⟨q₁, hq₁.forceSwitch⟩
    · refine ⟨_, (hq₁.kill ?_ hkill).forceSwitch⟩
      rw [hlist]
      exact threadGetThread_some hprc

end QueueInv

theorem Booted.queueInv (h : Booted k) : QueueInv k [idle] := by
  refine ⟨?_, ?_, ?_, ?_, ?_, ?_, ?_, ?_, ?_, ?_, ?_⟩
  · rw [h.priority1]
    exact (Holds.new (by decide)).write_of_room (by decide)
  · rw [h.priority1]
    rfl
  · intro p hne hlt
    exact absurd (h.eq_idle hlt) hne
  · intro p hp
    rw [mem_singleton.mp hp, h.freePid]
    exact ⟨Nat.one_pos, fun hne => absurd rfl hne⟩
  · unfold idleCopies
    rw [h.proc_idle]
    decide
  · rw [h.taskList]
    intro p hp
    cases hp
  · rw [h.taskList]
    exact nodup_nil
  · intro p hne _ hlt
    exact absurd (h.eq_idle hlt) hne
  · intro p hlt
    rw [h.proc_eq hlt]
    exact ⟨rfl, rfl⟩
  · intro p hp
    rw [h.running] at hp
    cases hp
    rw [h.freePid]
    exact Nat.one_pos
  · rw [h.freePid]
    exact Nat.one_pos

def Call.queues : Call → Bool
  | .create _ | .schedule _ | .kill _ _ _ | .sysKill _ _ => true
  | _ => false

structure QueueStep (k : Kernel) (c : Call) (k' : Kernel) : Prop where
  step : Step k c k'
  call : c.queues
  alive : k'.alive < 999

/-- A call of the scheduler finds no process it has to kill. -/
structure CalmStep (k : Kernel) (c : Call) (k' : Kernel) : Prop extends QueueStep k c k' where
  calm : ∀ r, c = .schedule r → k.calm

variable {c : Call}

theorem QueueInv.step {q : List Nat} (inv : QueueInv k q) (halive : k.alive < 999) (h : CalmStep k c k') :
    ∃ q', QueueInv k' q' := by
  cases h.step with
  | create hc => exact ⟨_, inv.create (threadCreate_ok hc).2 h.alive⟩
  | schedule hs => exact inv.schedule (h.calm _ rfl) hs
  | kill hprc hk => exact ⟨_, inv.kill hprc (threadKillThread_ok hk)⟩
  | sysKill hk => exact inv.sysKill halive hk
  | nice | sigexit | clone | waitpid | waitpidAny => cases h.call

theorem run_queueInv {k₀ : Kernel} {calls : List Call} (hinit : threadInit = .ok k₀) (hrun : Run CalmStep k₀ calls k) :
    ∃ q, QueueInv k q := by
  have hboot := threadInit_ok hinit
  refine (hrun.invariant (fun k => (∃ q, QueueInv k q) ∧ k.alive < 999) ⟨⟨_, hboot.queueInv⟩, ?_⟩ ?_).1
  · unfold alive
    rw [hboot.freePid]
    exact Nat.lt_of_le_of_lt countP_le_length (by decide)
  · intro k c k' inv hs
    obtain ⟨⟨q, inv⟩, halive⟩ := inv
    exact ⟨inv.step halive hs, hs.alive⟩

def queueCheck (_ : Kernel) (c : Call) (k' : Kernel) : Bool := c.queues && k'.alive < 999

theorem queueStep_of_check (h : Step k c k' ∧ queueCheck k c k') : QueueStep k c k' := by
  obtain ⟨hcall, halive⟩ := Bool.and_eq_true_iff.mp h.2
  exact ⟨h.1, hcall, of_decide_eq_true halive⟩

def calmCheck (k : Kernel) (c : Call) (k' : Kernel) : Bool :=
  queueCheck k c k' && (List.range k.freePid).all fun p => (k.proc p).died || !fatalHead (k.proc p)

theorem calmStep_of_check (h : Step k c k' ∧ calmCheck k c k') : CalmStep k c k' := by
  obtain ⟨hqueue, hcalm⟩ := Bool.and_eq_true_iff.mp h.2
  refine ⟨queueStep_of_check ⟨h.1, hqueue⟩, fun _ _ p hp hlive => ?_⟩
  have := all_eq_true.mp hcalm p (mem_range.mpr hp)
  simpa [hlive] using this

/-- Every live process other than the idle one is in the run queue exactly once, in every state that is
    reached while no call of `thread_schedule` finds a fatal signal. -/
theorem runQueue_conserved {k₀ k : Kernel} {calls : List Call} (hinit : threadInit = .ok k₀)
    (hrun : Run CalmStep k₀ calls k) (p : Nat) (hne : p ≠ idle) (hlt : p < k.freePid)
    (hlive : (k.proc p).died = false) : k.priority1.toList.count p = 1 := by
  obtain ⟨q, inv⟩ := run_queueInv hinit hrun
  rw [inv.holds.toList_eq]
  exact inv.once p hne hlt hlive

/-- Three processes are created and one of them is killed. -/
theorem runQueue_conserved_third :
    ∃ k₀ k calls, threadInit = .ok k₀ ∧ Run CalmStep k₀ calls k ∧ 3 < k.freePid ∧ (k.proc 3).died = false ∧
      k.priority1.toList.count 3 = 1 := by
  let calls : List Call := [.create true, .schedule (.switched 1), .create true, .create true, .sysKill 2 1,
    .schedule (.switched 1)]
  have heval : ((threadInit.toOption.bind (Run.execAll exec calmCheck · calls)).any fun k =>
      3 < k.freePid ∧ (k.proc 3).died = false) = true := by decide +kernel
  obtain ⟨k₀, k, hinit, hrun, hend⟩ := Run.of_any step_of_exec calmStep_of_check heval
  obtain ⟨hlt, hlive⟩ := of_decide_eq_true hend
  exact ⟨k₀, k, calls, toOption_eq_some hinit, hrun, hlt, hlive,
    runQueue_conserved (toOption_eq_some hinit) hrun 3 (by decide) hlt hlive⟩

/-- A process with an unhandled signal 15 is killed by the scheduler, which then switches to its parent
    and pushes that a second time. -/
theorem runQueue_duplicates :
    ∃ k₀ k calls, threadInit = .ok k₀ ∧ Run QueueStep k₀ calls k ∧ 1 < k.freePid ∧ (k.proc 1).died = false ∧
      k.priority1.toList.count 1 = 2 := by
  let calls : List Call := [.create true, .schedule (.switched 1), .create true, .sysKill 2 15,
    .schedule (.switched 1), .sysKill 2 15, .schedule (.switched 1)]
  have heval : ((threadInit.toOption.bind (Run.execAll exec queueCheck · calls)).any fun k =>
      1 < k.freePid ∧ (k.proc 1).died = false ∧ k.priority1.toList.count 1 = 2) = true := by decide +kernel
  obtain ⟨k₀, k, hinit, hrun, hend⟩ := Run.of_any step_of_exec queueStep_of_check heval
  exact ⟨k₀, k, calls, toOption_eq_some hinit, hrun, of_decide_eq_true hend⟩

end Kernel
end HelinKern
