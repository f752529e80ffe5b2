import HelinKern.Mmu
import HelinKern.Pthread

/-! Mutual exclusion of mutexes: a lock never waits, so that it holds only in runs that do not need the mutex. -/

namespace HelinKern
namespace Pthread
open Word Function

variable {T : Type} [DecidableEq T] {pid : T → Nat} {mutex mtx : Nat} {m m' : Memory}

namespace Threads
variable {s : Threads T} {t : T}

/-- At most one thread is between a lock and its unlock, and a lock of a free mutex succeeds. -/
structure Exclusive (pid : T → Nat) (mutex : Nat) (s : Threads T) : Prop where
  one : ∀ t t', 0 < s.held t → 0 < s.held t' → t = t'
  free : (∀ t, s.held t = 0) → ∀ t, s.waiting t = false ∧ ∃ m, pthreadMutexLock s.mem mutex (pid t) = .returned m

/-- A lock is called while no other thread has the mutex. -/
def Alone (s : Threads T) : Op T → Prop
  | .lock t => ∀ t', 0 < s.held t' → t' = t
  | .wake _ | .unlock _ => True

structure Inv (s : Threads T) (mutex mtx : Nat) : Prop where
  type : type s.mem mutex = mtx
  waiting : ∀ t, s.waiting t = false
  one : ∀ t t', 0 < s.held t → 0 < s.held t' → t = t'

end Threads

theorem pthreadMutexLock_of_address (hmutex : mutex ≠ 0) (hlo : Mmu.userOffset ≤ mtx) (hhi : mtx < Mmu.memoryEnd)
    (htype : type m mutex = mtx) (self : Nat) :
    pthreadMutexLock m mutex self = .returned (setOwner m mutex self) := by
  unfold Mmu.userOffset at hlo
  unfold Mmu.memoryEnd at hhi
  unfold pthreadMutexLock pthreadMutexInitializer
  rw [if_neg hmutex, if_neg (by omega), if_neg (by omega), if_neg (by omega)]

theorem pthreadMutexUnlock_of_address (hmutex : mutex ≠ 0) (hlo : Mmu.userOffset ≤ mtx) (hhi : mtx < Mmu.memoryEnd)
    (htype : type m mutex = mtx) : pthreadMutexUnlock m mutex = .ok m := by
  unfold Mmu.userOffset at hlo
  unfold Mmu.memoryEnd at hhi
  unfold pthreadMutexUnlock pthreadMutexInitializer
  rw [if_neg hmutex, if_neg (by omega)]

theorem type_setOwner (m : Memory) (mutex self : Nat) : type (setOwner m mutex self) mutex = type m mutex :=
  read_write_of_outside (by omega)

theorem pthreadMutexInit_ok (hhi : mtx < Mmu.memoryEnd) (h : pthreadMutexInit m mutex mtx = .ok m') :
    mutex ≠ 0 ∧ type m' mutex = mtx := by
  unfold pthreadMutexInit at h
  split at h
  · cases h
  rename_i hmutex
  cases h
  unfold Mmu.memoryEnd at hhi
  unfold type
  rw [read_write_self]
  omega

namespace Threads
variable {s s' : Threads T} {op : Op T} {t : T}

theorem held_acquire_self : (s.acquire t m).held t = s.held t + 1 := update_self ..

theorem held_acquire_of_ne {t' : T} (h : t' ≠ t) : (s.acquire t m).held t' = s.held t' := update_of_ne h ..

theorem waiting_acquire (h : ∀ t, s.waiting t = false) (t' : T) : (s.acquire t m).waiting t' = false := by
  by_cases heq : t' = t
  · subst heq
    exact update_self ..
  · exact (update_of_ne heq ..).trans (h t')

omit [DecidableEq T] in
theorem Inv.exclusive (h : s.Inv mutex mtx) (hmutex : mutex ≠ 0) (hlo : Mmu.userOffset ≤ mtx) (hhi : mtx < Mmu.memoryEnd) :
    s.Exclusive pid mutex :=
  ⟨h.one, fun _ t => ⟨h.waiting t, _, pthreadMutexLock_of_address hmutex hlo hhi h.type _⟩⟩

theorem Inv.exec_cases (h : s.Inv mutex mtx) (hmutex : mutex ≠ 0) (hlo : Mmu.userOffset ≤ mtx) (hhi : mtx < Mmu.memoryEnd)
    (hexec : s.exec pid mutex op = some s') :
    (∃ t, op = .lock t ∧ s' = s.acquire t (setOwner s.mem mutex (pid t))) ∨
      (∃ t, op = .unlock t ∧ s' = { s with held := update s.held t (s.held t - 1) }) := by
  cases op with
  | lock t =>
    simp only [exec, h.waiting t, pthreadMutexLock_of_address hmutex hlo hhi h.type] at hexec
    exact .inl ⟨t, rfl, (Option.some.inj hexec).symm⟩
  | wake t =>
    simp only [exec, h.waiting t] at hexec
    cases hexec
  | unlock t =>
    simp only [exec, h.waiting t, pthreadMutexUnlock_of_address hmutex hlo hhi h.type] at hexec
    exact .inr ⟨t, rfl, (Option.some.inj hexec).symm⟩

theorem one_acquire : (∀ t₁ t₂, 0 < (s.acquire t m).held t₁ → 0 < (s.acquire t m).held t₂ → t₁ = t₂) ↔ s.Alone (.lock t) := by
  constructor
  · intro h t' ht'
    by_contra hne
    refine hne (h t' t ?_ ?_)
    · rwa [held_acquire_of_ne hne]
    · rw [held_acquire_self]
      omega
  · intro h t₁ t₂ h₁ h₂
    have hself {t' : T} (ht' : 0 < (s.acquire t m).held t') : t' = t := by
      by_contra hne
      rw [held_acquire_of_ne hne] at ht'
      exact hne (h t' ht')
    rw [hself h₁, hself h₂]

theorem Inv.step (h : s.Inv mutex mtx) (hmutex : mutex ≠ 0) (hlo : Mmu.userOffset ≤ mtx) (hhi : mtx < Mmu.memoryEnd)
    (hexec : s.exec pid mutex op = some s') :
    (s'.Exclusive pid mutex ↔ s.Alone op) ∧ (s.Alone op → s'.Inv mutex mtx) := by
  suffices hinv : s.Alone op → s'.Inv mutex mtx by
    refine ⟨⟨fun hexcl => ?_, fun halone => (hinv halone).exclusive hmutex hlo hhi⟩, hinv⟩
    obtain ⟨t, rfl, rfl⟩ | ⟨t, rfl, rfl⟩ := h.exec_cases hmutex hlo hhi hexec
    · exact one_acquire.mp hexcl.one
    · trivial
  intro halone
  obtain ⟨t, rfl, rfl⟩ | ⟨t, rfl, rfl⟩ := h.exec_cases hmutex hlo hhi hexec
  · exact ⟨(type_setOwner _ _ _).trans h.type, waiting_acquire h.waiting, one_acquire.mpr halone⟩
  have hle (t' : T) (ht' : 0 < update s.held t (s.held t - 1) t') : 0 < s.held t' := by
    by_cases heq : t' = t
    · rw [heq, update_self] at ht'
      rw [heq]
      omega
    · rwa [update_of_ne heq] at ht'
  exact ⟨h.type, h.waiting, fun t₁ t₂ h₁ h₂ => h.one t₁ t₂ (hle t₁ h₁) (hle t₂ h₂)⟩

/-- A mutex that was initialised excludes other threads in a run exactly if no thread ever locks it while another one has
    it. -/
theorem mutex_exclusive_iff (pid : T → Nat) {m m' : Memory} {mutex mtx : Nat} (hlo : Mmu.userOffset ≤ mtx)
    (hhi : mtx < Mmu.memoryEnd) (hinit : pthreadMutexInit m mutex mtx = .ok m') (ops : List (Op T)) :
    ((start m' : Threads T).Exclusive pid mutex ∧
        Lts.Along (exec pid mutex) (fun _ _ s => s.Exclusive pid mutex) (start m') ops) ↔
      Lts.Along (exec pid mutex) (fun s op _ => s.Alone op) (start m') ops := by
  obtain ⟨hmutex, htype⟩ := pthreadMutexInit_ok hhi hinit
  have hinv : (start m' : Threads T).Inv mutex mtx := ⟨htype, fun _ => rfl, fun _ _ h => absurd h (Nat.lt_irrefl 0)⟩
  rw [and_iff_right (hinv.exclusive hmutex hlo hhi)]
  exact Lts.along_iff (·.Inv mutex mtx) hinv (fun h hexec => (h.step hmutex hlo hhi hexec).1)
    (fun h hexec => (h.step hmutex hlo hhi hexec).2) ops

def initialised : Memory := write (fun x => if 0x40002000 ≤ x ∧ x < 0x40002010 then 0 else 0) 0x40001000 0x40002000

theorem initialised_ok : pthreadMutexInit (fun _ => 0) 0x40001000 0x40002000 = .ok initialised := by
  rfl

theorem mutex_exclusive_iff_once :
    (start initialised : Threads Bool).Exclusive (fun _ => 1) 0x40001000 ∧
      Lts.Along (exec (fun _ => 1) 0x40001000) (fun _ _ s => s.Exclusive (fun _ => 1) 0x40001000)
        (start initialised : Threads Bool) [.lock false, .unlock false] :=
  (mutex_exclusive_iff _ (by decide) (by decide) initialised_ok _).mpr
    fun _ _ => ⟨fun _ h => absurd h (Nat.lt_irrefl 0), fun _ _ => ⟨trivial, trivial⟩⟩

/-- Two threads lock the mutex one after the other, and both have it. -/
theorem both_locks_succeed :
    pthreadMutexInit (fun _ => 0) 0x40001000 0x40002000 = .ok initialised ∧
      ∃ s₁ s₂ : Threads Bool, (start initialised).exec (fun t => if t then 2 else 1) 0x40001000 (.lock false) = some s₁ ∧
        s₁.exec (fun t => if t then 2 else 1) 0x40001000 (.lock true) = some s₂ ∧
        ¬s₂.Exclusive (fun t => if t then 2 else 1) 0x40001000 := by
  refine ⟨initialised_ok, _, _, rfl, rfl, fun h => ?_⟩
  have heq := h.one false true (by decide) (by decide)
  cases heq

end Threads
end Pthread
end HelinKern
