import HelinKern.ArrayAccess

/-! For which numbers the calls stay inside the arrays, and refuse what is outside. -/

namespace HelinKern
open FdTable List

def ArrayEvent.InBounds : ArrayEvent → Prop
  | .readFd i | .writeFd i => 0 ≤ i ∧ i < FdTable.slots
  | .readHandler i | .writeHandler i => 0 ≤ i ∧ i < nsignals
  | .readLimit i => 0 ≤ i ∧ i < limits
  | .queueSignal _ => True

def ArrayEvent.Changes : ArrayEvent → Prop
  | .writeFd _ | .writeHandler _ | .queueSignal _ => True
  | .readFd _ | .readHandler _ | .readLimit _ => False

def Reply.IsError : Reply → Prop
  | .code r => r ≠ 0
  | .void | .goesOn => False

def CallTrace.InBounds (t : CallTrace) : Prop := ∀ e ∈ t.events, e.InBounds

def CallTrace.Refused (t : CallTrace) : Prop := t.reply.IsError ∧ ∀ e ∈ t.events, ¬e.Changes

/-- A call stays inside the arrays, and refuses numbers that are out of range. -/
def CallTrace.Guards (t : CallTrace) (outOfRange : Prop) : Prop := t.InBounds ∧ (outOfRange → t.Refused)

namespace CallTrace

variable {t : CallTrace} {e : ArrayEvent} {es : List ArrayEvent} {r : Reply} {q : Prop}

theorem inBounds_nil : InBounds ⟨[], r⟩ := fun _ he => nomatch he

theorem inBounds_cons : InBounds ⟨e :: es, r⟩ ↔ e.InBounds ∧ ∀ e ∈ es, e.InBounds := forall_mem_cons

theorem inBounds_single : InBounds ⟨[e], r⟩ ↔ e.InBounds := forall_mem_singleton

theorem guards_error {c : Int} (hc : c ≠ 0) : Guards ⟨[], .code c⟩ q := ⟨inBounds_nil, fun _ => ⟨hc, fun _ he => nomatch he⟩⟩

theorem guards_iff (h : q → ¬t.InBounds) : t.Guards q ↔ t.InBounds := ⟨And.left, fun ht => ⟨ht, fun hq => absurd ht (h hq)⟩⟩

theorem guards_not (h : t.InBounds ↔ q) : t.Guards (¬q) ↔ q := (guards_iff fun hq ht => hq (h.mp ht)).trans h

end CallTrace

namespace ArrayState
open CallTrace

variable {s : ArrayState} {fd : Int} {found : FileDescriptor → CallTrace}

def IsFd (fd : Int) : Prop := 0 ≤ fd ∧ fd < FdTable.slots

def IsSignal (signum : Int) : Prop := 0 ≤ signum ∧ signum < nsignals

/-- A number the call uses as an index has no element. `sys_dup` uses `newfd` in its form `dup2` only, and
    `sys_readlinkat` has `-2` for the work directory. -/
def Call.OutOfRange : Call → Prop
  | .read fd | .write fd | .close fd _ | .seek fd | .tell fd | .fstat fd | .listen fd | .accept fd _ | .connect fd
  | .send fd | .recv fd | .ready fd | .msgCommand fd => ¬IsFd fd
  | .dup oldfd newfd dupfd => ¬IsFd oldfd ∨ dupfd = 2 ∧ ¬IsFd newfd
  | .readlinkat dirfd => dirfd ≠ -2 ∧ ¬IsFd dirfd
  | .signal signum _ | .sigaction signum _ | .sigexit signum | .kill _ signum => ¬IsSignal signum
  | .getrlimit id => ¬(0 ≤ id ∧ id < limits)

/-- There is a slot for `sys_dup` in its form `dup`. -/
def HasSlot (s : ArrayState) : Prop := s.nextFd < FdTable.slots ∨ ∃ i < s.nextFd, i < FdTable.slots ∧ s.fds i = none

def Fits (s : ArrayState) : Call → Prop
  | .read _ | .write _ | .close .. | .seek _ | .tell _ => True
  | .fstat fd | .listen fd | .connect fd | .send fd | .recv fd | .ready fd => IsFd fd
  | .accept fd client =>
    IsFd fd ∧ (client = true → s.fds fd ≠ none → s.nextFd < FdTable.slots ∨ FdTable.openLimit ≤ s.nextFd)
  | .dup oldfd newfd dupfd =>
    IsFd oldfd ∧ ((s.fds oldfd ≠ none ∨ dupfd = 1) → newfd < FdTable.slots → if dupfd = 2 then 0 ≤ newfd else s.HasSlot)
  | .readlinkat dirfd => dirfd = -2 ∨ IsFd dirfd
  | .msgCommand key => key < FdTable.slots
  | .signal signum _ | .sigexit signum => IsSignal signum
  | .sigaction sig act => 0 ≤ sig ∨ act = false
  | .kill pid sig => 0 ≤ sig ∨ ∀ t, s.target pid = some t → t.dead = true
  | .getrlimit id => 0 ≤ id

theorem checkedFd_guards (hfound : ∀ d, IsFd fd → (found d).InBounds) : (s.checkedFd fd found).Guards (¬IsFd fd) := by
  unfold checkedFd
  split
  · exact guards_error (by decide)
  rename_i hfd
  have hfd : IsFd fd := by
    rw [not_or, Int.not_lt, Int.not_le] at hfd
    exact hfd
  refine (guards_iff fun h => absurd hfd h).mpr ?_
  split
  · exact inBounds_single.mpr hfd
  next d _ => exact inBounds_cons.mpr ⟨hfd, hfound d hfd⟩

theorem uncheckedFd_guards :
    (s.uncheckedFd fd found).Guards (¬IsFd fd) ↔ IsFd fd ∧ ∀ d, s.fds fd = some d → (found d).InBounds := by
  unfold uncheckedFd
  cases hd : s.fds fd with
  | none => exact (guards_not inBounds_single).trans (and_iff_left nofun).symm
  | some d =>
    have hbounds : InBounds ⟨.readFd fd :: (found d).events, (found d).reply⟩ ↔ IsFd fd ∧ (found d).InBounds := inBounds_cons
    rw [guards_iff fun h h' => h (hbounds.mp h').1, hbounds]
    exact and_congr_right fun _ => ⟨fun h d' hd' => Option.some.inj hd' ▸ h, fun h => h d rfl⟩

theorem uncheckedFd_guards_goesOn : (s.uncheckedFd fd fun _ => ⟨[], .goesOn⟩).Guards (¬IsFd fd) ↔ IsFd fd := by
  rw [uncheckedFd_guards, and_iff_left fun _ _ => inBounds_nil]

theorem sysTell_guards : (sysTell fd).Guards (¬IsFd fd) := by
  unfold sysTell
  split
  · exact guards_error (by decide)
  next hfd =>
    rw [not_or, Int.not_lt, Int.not_le] at hfd
    exact (guards_iff fun h => absurd hfd h).mpr (inBounds_single.mpr hfd)

theorem sysReady_guards : (sysReady fd).Guards (¬IsFd fd) ↔ IsFd fd := guards_not inBounds_single

theorem openFor_inBounds : s.openFor.InBounds ↔ s.nextFd < slots ∨ openLimit ≤ s.nextFd := by
  unfold openFor
  split
  · exact iff_of_true inBounds_nil (.inr (by omega))
  · rw [inBounds_single, ArrayEvent.InBounds]
    omega

theorem sysAccept_guards (client : Bool) : (s.sysAccept fd client).Guards (¬IsFd fd) ↔
    IsFd fd ∧ (client → s.fds fd ≠ none → s.nextFd < slots ∨ openLimit ≤ s.nextFd) := by
  unfold sysAccept
  rw [uncheckedFd_guards]
  refine and_congr_right fun _ => ?_
  cases client with
  | false => exact iff_of_true (fun _ _ => inBounds_nil) nofun
  | true =>
    simp only [if_true, openFor_inBounds, forall_const]
    exact ⟨fun h hne => h _ (Option.some_get (Option.isSome_iff_ne_none.mpr hne)).symm,
      fun h d hd => h (by rw [hd]; nofun)⟩

theorem sysReadlinkat_guards :
    (s.sysReadlinkat fd).Guards (fd ≠ -2 ∧ ¬IsFd fd) ↔ fd = -2 ∨ IsFd fd := by
  unfold sysReadlinkat
  split
  next hcwd => exact iff_of_true ⟨inBounds_nil, fun h => absurd hcwd h.1⟩ (.inl hcwd)
  next hcwd =>
    rw [or_iff_right hcwd, and_iff_right hcwd]
    exact uncheckedFd_guards_goesOn

theorem msgCommand_guards : (s.msgCommand fd).Guards (¬IsFd fd) ↔ fd < slots := by
  unfold msgCommand
  split
  next hneg => exact iff_of_true (guards_error (by decide)) (by omega)
  rename_i hneg
  have hfd : IsFd fd ↔ fd < slots := and_iff_right (Int.not_lt.mp hneg)
  split
  · exact (guards_not inBounds_single).trans hfd
  · exact (guards_not inBounds_single).trans hfd

theorem dupLoop_inBounds (n i : Nat) :
    (∀ e ∈ (s.dupLoop n i).1, e.InBounds) ∧ (s.dupLoop n i).2 < slots ↔
      i + n < slots ∨ ∃ k, i ≤ k ∧ k < i + n ∧ k < slots ∧ s.fds k = none := by
  induction n generalizing i with
  | zero =>
    have hnone : ¬∃ k, i ≤ k ∧ k < i + 0 ∧ k < slots ∧ s.fds k = none := by
      omega
    rw [or_iff_left hnone]
    exact and_iff_right fun e he => nomatch he
  | succ n ih =>
    unfold dupLoop
    have hread : ArrayEvent.InBounds (.readFd i) ↔ i < slots := by
      rw [ArrayEvent.InBounds]
      omega
    split
    next hfree =>
      rw [forall_mem_singleton, hread, and_self]
      constructor
      · intro hi
        exact .inr ⟨i, le_rfl, by omega, hi, Option.isNone_iff_eq_none.mp hfree⟩
      · rintro (hlt | ⟨k, hik, -, hk, -⟩)
        · omega
        · omega
    next hfull =>
      rw [forall_mem_cons, hread, and_assoc, ih]
      constructor
      · rintro ⟨-, hlt | ⟨k, hik, hkn, hk⟩⟩
        · exact .inl (by omega)
        · exact .inr ⟨k, by omega, by omega, hk⟩
      · rintro (hlt | ⟨k, hik, hkn, hk, hnone⟩)
        · exact ⟨by omega, .inl (by omega)⟩
        have hne : k ≠ i := by
          rintro rfl
          rw [hnone] at hfull
          exact hfull rfl
        exact ⟨by omega, .inr ⟨k, by omega, by omega, hk, hnone⟩⟩

theorem sysDup_guards (oldfd newfd dupfd : Int) :
    (s.sysDup oldfd newfd dupfd).Guards (¬IsFd oldfd ∨ dupfd = 2 ∧ ¬IsFd newfd) ↔ s.Fits (.dup oldfd newfd dupfd) := by
  have hold : (ArrayEvent.readFd oldfd).InBounds ↔ IsFd oldfd := Iff.rfl
  -- an error after `fds[oldfd]` was read
  have herror {c : Int} (hc : c ≠ 0) :
      CallTrace.Guards ⟨[.readFd oldfd], .code c⟩ (¬IsFd oldfd ∨ dupfd = 2 ∧ ¬IsFd newfd) ↔ IsFd oldfd := by
    refine ⟨fun h => inBounds_single.mp h.1, fun h => ⟨inBounds_single.mpr h, fun _ => ⟨hc, ?_⟩⟩⟩
    exact forall_mem_singleton.mpr id
  unfold sysDup Fits
  split
  next hmissing =>
    rw [herror (by decide)]
    refine (and_iff_left fun h => ?_).symm
    exact absurd h (by rw [not_or, not_not]; exact hmissing)
  next hfound =>
    split
    next hnew =>
      rw [herror (by decide)]
      refine (and_iff_left fun _ h => ?_).symm
      have : (slots : Int) = 200 := rfl
      omega
    next hnew =>
      have hfound : s.fds oldfd ≠ none ∨ dupfd = 1 := by
        rw [not_and_or, not_not] at hfound
        exact hfound
      have hnew : newfd < slots := Int.not_le.mp hnew
      simp only [hfound, hnew, forall_const]
      split
      next hdup2 =>
        have hbounds : InBounds ⟨[.readFd oldfd, .writeFd newfd], .code newfd⟩ ↔ IsFd oldfd ∧ 0 ≤ newfd := by
          rw [inBounds_cons, forall_mem_singleton, hold, ArrayEvent.InBounds, and_iff_left hnew]
        rw [← hbounds]
        refine guards_iff fun h h' => ?_
        obtain ⟨hfd, hpos⟩ := hbounds.mp h'
        exact h.elim (absurd hfd) fun h => h.2 ⟨hpos, hnew⟩
      next hdup =>
        have hslot : (∀ e ∈ (s.dupLoop s.nextFd 0).1, e.InBounds) ∧ (s.dupLoop s.nextFd 0).2 < slots ↔ s.HasSlot := by
          rw [dupLoop_inBounds, Nat.zero_add]
          exact or_congr_right (exists_congr fun k => and_iff_right (Nat.zero_le k))
        have hbounds : InBounds ⟨.readFd oldfd :: (s.dupLoop s.nextFd 0).1 ++ [.writeFd (s.dupLoop s.nextFd 0).2],
            .code (s.dupLoop s.nextFd 0).2⟩ ↔ IsFd oldfd ∧ s.HasSlot := by
          rw [cons_append, inBounds_cons, hold, forall_mem_append, forall_mem_singleton, ArrayEvent.InBounds,
            ← hslot]
          refine and_congr_right fun _ => and_congr_right fun _ => ?_
          omega
        rw [← hbounds]
        refine guards_iff fun h h' => ?_
        exact h.elim (absurd (hbounds.mp h').1) fun h => absurd h.1 hdup

theorem sysSignal_guards (signum handler : Int) :
    (sysSignal signum handler).Guards (¬IsSignal signum) ↔ IsSignal signum := by
  constructor
  · intro h
    by_contra hout
    -- the call has no answer
    have herror := (h.2 hout).1
    unfold sysSignal at herror
    split at herror <;> exact herror
  · intro hin
    refine (guards_iff fun h => absurd hin h).mpr ?_
    unfold sysSignal
    split
    · exact inBounds_nil
    · exact inBounds_cons.mpr ⟨hin, forall_mem_singleton.mpr hin⟩

theorem sysSigaction_guards (sig : Int) (act : Bool) :
    (sysSigaction sig act).Guards (¬IsSignal sig) ↔ 0 ≤ sig ∨ act = false := by
  unfold sysSigaction
  split
  · exact iff_of_true (guards_error (by decide)) (.inl (by omega))
  rename_i hlt
  split
  · exact iff_of_true (guards_error (by decide)) (.inr ‹_›)
  rename_i hact
  have hsig : IsSignal sig ↔ 0 ≤ sig := and_iff_left (Int.not_le.mp hlt)
  have hbounds : InBounds ⟨[.readHandler sig, .writeHandler sig], .code 0⟩ ↔ IsSignal sig := by
    rw [inBounds_cons, forall_mem_singleton]
    exact and_self_iff
  rw [guards_not hbounds, hsig, or_iff_left hact]

theorem sysSigexit_guards (signum : Int) : (sysSigexit signum).Guards (¬IsSignal signum) ↔ IsSignal signum :=
  guards_not inBounds_single

theorem sysKill_guards (pid sig : Int) : (s.sysKill pid sig).Guards (¬IsSignal sig) ↔
    0 ≤ sig ∨ ∀ t, s.target pid = some t → t.dead := by
  unfold sysKill
  split
  next hkill =>
    have hsig : IsSignal sig := by
      rcases hkill with rfl | rfl <;> exact ⟨by decide, by decide⟩
    refine iff_of_true ((guards_iff fun h => absurd hsig h).mpr ?_) (.inl hsig.1)
    split
    · exact inBounds_nil
    · split <;> exact inBounds_nil
  · split
    · exact iff_of_true (guards_error (by decide)) (.inl (by omega))
    rename_i hlt
    have hsig : IsSignal sig ↔ 0 ≤ sig := and_iff_left (Int.not_le.mp hlt)
    cases ht : s.target pid with
    | none => exact iff_of_true (guards_error (by decide)) (.inr nofun)
    | some t =>
      simp only [Option.some.injEq, forall_eq']
      split
      · exact iff_of_true (guards_error (by decide)) (.inr ‹_›)
      rename_i halive
      have hbounds : InBounds ⟨[.queueSignal sig, .readHandler sig], .code 0⟩ ↔ IsSignal sig := by
        rw [inBounds_cons, forall_mem_singleton]
        exact and_iff_right trivial
      rw [guards_not hbounds, hsig, or_iff_left halive]

theorem sysGetrlimit_guards (id : Int) : (sysGetrlimit id).Guards (¬(0 ≤ id ∧ id < limits)) ↔ 0 ≤ id := by
  unfold sysGetrlimit
  split
  · exact iff_of_true (guards_error (by decide)) (by omega)
  next hle =>
    have hid : (0 ≤ id ∧ id < limits) ↔ 0 ≤ id := and_iff_left (by unfold limits; omega)
    exact (guards_not inBounds_single).trans hid

/-- A call stays inside the arrays and refuses numbers out of range exactly if it is one of those that check them, or gets
    numbers that fit. -/
theorem array_access_guarded (s : ArrayState) (call : Call) : (s.trace call).Guards call.OutOfRange ↔ s.Fits call := by
  cases call with
  | read fd | write fd | seek fd => exact iff_of_true (checkedFd_guards fun _ _ => inBounds_nil) trivial
  | close fd accessable =>
    refine iff_of_true (checkedFd_guards fun _ hfd => ?_) trivial
    split
    · exact inBounds_single.mpr hfd
    · exact inBounds_nil
  | tell fd => exact iff_of_true sysTell_guards trivial
  | dup oldfd newfd dupfd => exact sysDup_guards oldfd newfd dupfd
  | fstat fd | listen fd | connect fd | send fd | recv fd => exact uncheckedFd_guards_goesOn
  | accept fd client => exact sysAccept_guards client
  | ready fd => exact sysReady_guards
  | readlinkat dirfd => exact sysReadlinkat_guards
  | msgCommand key => exact msgCommand_guards
  | signal signum handler => exact sysSignal_guards signum handler
  | sigaction sig act => exact sysSigaction_guards sig act
  | sigexit signum => exact sysSigexit_guards signum
  | kill pid sig => exact sysKill_guards pid sig
  | getrlimit id => exact sysGetrlimit_guards id

/-- A descriptor number behind the array is looked up by `sys_listen`. -/
theorem listen_reads_outside :
    ¬((⟨fun _ => none, 0, fun _ => none⟩ : ArrayState).trace (.listen 200)).Guards (Call.OutOfRange (.listen 200)) := by
  intro h
  exact absurd (h.1 (.readFd 200) (by decide)).2 (by decide)

end ArrayState
end HelinKern
