import HelinKern.Descriptors
import Mathlib.Order.Lattice

/-! Which calls hand out a free slot of the table: those that find it at, or for `dup` below, the cursor `next_fd`. -/

namespace HelinKern
namespace FdTable

variable {t : FdTable} {i : Nat}

/-- The number returned is a slot that was free, nothing open is overwritten, and without a free slot the call fails
    and changes nothing. -/
structure Allocates (t : FdTable) (r : Int × FdTable) : Prop where
  free : 0 ≤ r.1 → ∃ i < slots, r.1 = i ∧ t.fds i = none
  kept : ∀ i, t.fds i ≠ none → r.2.fds i = t.fds i
  full : (∀ i < slots, t.fds i ≠ none) → r.1 < 0 ∧ r.2 = t

theorem Allocates.of_failed {r : Int} (h : r < 0) : Allocates t (r, t) where
  free h' := absurd h' (not_le.mpr h)
  kept _ _ := rfl
  full _ := ⟨h, rfl⟩

theorem allocates_put_iff {fd : FileDescriptor} {n : Nat} :
    Allocates t (i, { t.put i (some fd) with nextFd := n }) ↔ i < slots ∧ t.fds i = none := by
  constructor
  · intro h
    obtain ⟨j, hj, heq, hfree⟩ := h.free (Int.natCast_nonneg i)
    obtain rfl : i = j := Int.ofNat_inj.mp heq
    exact ⟨hj, hfree⟩
  · rintro ⟨hi, hfree⟩
    refine ⟨fun _ => ⟨i, hi, rfl, hfree⟩, fun j hj => ?_, fun hfull => absurd hfree (hfull i hi)⟩
    refine Function.update_of_ne ?_ _ _
    rintro rfl
    exact hj hfree

theorem openFor_of_limit (pid node : Nat) (flags : Int) (h : openLimit ≤ t.nextFd) :
    t.openFor pid (some node) flags = (-eNFILE, t) :=
  if_pos (Nat.lt_succ_of_le h)

theorem openFor_of_lt (pid node : Nat) (flags : Int) (h : t.nextFd < openLimit) : t.openFor pid (some node) flags =
    ((t.nextFd : Int), { t.put t.nextFd (some ⟨pid, node, 0, flags⟩) with nextFd := t.nextFd + 1 }) :=
  if_neg (Nat.not_lt.mpr h)

def OpenFits (t : FdTable) (node : Option Nat) : Prop :=
  node = none ∨ openLimit ≤ t.nextFd ∨ (t.nextFd < slots ∧ t.fds t.nextFd = none)

theorem openFor_allocates_iff (pid : Nat) (node : Option Nat) (flags : Int) :
    Allocates t (t.openFor pid node flags) ↔ t.OpenFits node := by
  cases node with
  | none => exact iff_of_true (.of_failed (by decide)) (.inl rfl)
  | some node =>
    by_cases hlimit : openLimit ≤ t.nextFd
    · rw [openFor_of_limit pid node flags hlimit]
      exact iff_of_true (.of_failed (by decide)) (.inr (.inl hlimit))
    · rw [openFor_of_lt pid node flags (Nat.lt_of_not_le hlimit), allocates_put_iff, OpenFits, or_iff_right nofun,
        or_iff_right hlimit]

theorem findFree_eq_some (h : t.findFree = some i) : i < t.nextFd ∧ t.fds i = none ∧ ∀ j < i, t.fds j ≠ none := by
  unfold findFree at h
  simpa [and_left_comm, ← Option.ne_none_iff_isSome] using h

theorem findFree_eq_none (h : t.findFree = none) : ∀ i < t.nextFd, t.fds i ≠ none := by
  unfold findFree at h
  simpa using h

def DupFits (t : FdTable) (oldfd : Nat) (dupfd : Int) : Prop :=
  (t.fds oldfd = none ∧ dupfd ≠ 1) ∨ ∃ i ≤ t.nextFd, i < slots ∧ t.fds i = none

theorem dup_allocates_iff {oldfd newfd : Nat} {dupfd : Int} (junk : FileDescriptor) (hnew : newfd < slots)
    (hdup : dupfd ≠ 2) : Allocates t (t.dup oldfd newfd dupfd junk) ↔ t.DupFits oldfd dupfd := by
  unfold dup DupFits
  by_cases hfd : t.fds oldfd = none ∧ dupfd ≠ 1
  · rw [if_pos hfd]
    exact iff_of_true (.of_failed (by decide)) (.inl hfd)
  rw [if_neg hfd, if_neg (Nat.not_le.mpr hnew), if_neg hdup, or_iff_right hfd]
  cases hfind : t.findFree with
  | some i =>
    obtain ⟨hi, hfree, hfirst⟩ := findFree_eq_some hfind
    refine (allocates_put_iff).trans ⟨fun h => ⟨i, hi.le, h⟩, ?_⟩
    -- a free slot inside the array is no lower than the first free one
    rintro ⟨j, -, hj, hfree'⟩
    have hij : i ≤ j := not_lt.mp fun hlt => hfirst j hlt hfree'
    exact ⟨Nat.lt_of_le_of_lt hij hj, hfree⟩
  | none =>
    refine allocates_put_iff.trans ⟨fun h => ⟨_, le_rfl, h⟩, ?_⟩
    rintro ⟨j, hj, hslot, hfree⟩
    obtain rfl : j = t.nextFd := (Nat.lt_or_eq_of_le hj).resolve_left fun hlt => findFree_eq_none hfind j hlt hfree
    exact ⟨hslot, hfree⟩

end FdTable

namespace FdTables
open FdTable

/-- What the table of the caller must show after a call that returns a new descriptor. -/
def Sound (s : FdTables) : Op → Prop
  | .openFor pid node flags => ∀ t, s pid = some t → t.Allocates (t.openFor pid node flags)
  | .dup pid oldfd newfd dupfd junk => dupfd ≠ 2 → ∀ t, s pid = some t → t.Allocates (t.dup oldfd newfd dupfd junk)
  | .close .. | .fork .. => True

def Fits (s : FdTables) : Op → Prop
  | .openFor pid node _ => ∀ t, s pid = some t → t.OpenFits node
  | .dup pid oldfd _ dupfd _ => dupfd ≠ 2 → ∀ t, s pid = some t → t.DupFits oldfd dupfd
  | .close .. | .fork .. => True

theorem sound_iff_fits (s : FdTables) (op : Op) : s.Sound op ↔ s.Fits op := by
  cases op with
  | openFor pid node flags =>
    exact forall_congr' fun t => forall_congr' fun _ => openFor_allocates_iff pid node flags
  | dup pid oldfd newfd dupfd junk =>
    exact forall_congr' fun hdup => forall_congr' fun t => forall_congr' fun _ =>
      dup_allocates_iff junk newfd.isLt hdup
  | close => exact Iff.rfl
  | fork => exact Iff.rfl

/-- The calls of a run from an empty table hand out free slots only if the cursor `next_fd` is right at each, and then
    they do. -/
theorem descriptor_table_sound (pid : Nat) (ops : List Op) :
    Lts.Along exec (fun s op _ => s.Sound op) (start pid) ops ↔
      Lts.Along exec (fun s op _ => s.Fits op) (start pid) ops :=
  ⟨fun h => h.mono fun _ => (sound_iff_fits _ _).mp, fun h => h.mono fun _ => (sound_iff_fits _ _).mpr⟩

/-- `open`, `dup(0)`, `close(0)`, `dup(1)`: the last call takes slot 0 again. -/
theorem descriptor_table_sound_reuse :
    Lts.Along exec (fun s op _ => s.Sound op) (start 1)
      [.openFor 1 (some 7) 2, .dup 1 ⟨0, by decide⟩ ⟨0, by decide⟩ 0 ⟨0, 0, 0, 0⟩, .close 1 0 true,
        .dup 1 ⟨1, by decide⟩ ⟨0, by decide⟩ 0 ⟨0, 0, 0, 0⟩] := by
  refine (descriptor_table_sound 1 _).mpr ?_
  rintro s ⟨rfl⟩
  refine ⟨?_, ?_⟩
  · rintro t ⟨rfl⟩
    exact .inr (.inr ⟨by decide, rfl⟩)
  rintro s ⟨rfl⟩
  refine ⟨?_, ?_⟩
  · rintro - t ⟨rfl⟩
    exact .inr ⟨1, by decide, by decide, rfl⟩
  rintro s ⟨rfl⟩
  refine ⟨trivial, ?_⟩
  rintro s ⟨rfl⟩
  refine ⟨?_, trivial⟩
  rintro - t ⟨rfl⟩
  exact .inr ⟨0, by decide, by decide, rfl⟩

/-- `open`, `dup2(0, 1)`, `open`: the second `open` takes slot 1 again. -/
theorem descriptor_overwritten :
    ¬Lts.Along exec (fun s op _ => s.Sound op) (start 1)
      [.openFor 1 (some 7) 2, .dup 1 ⟨0, by decide⟩ ⟨1, by decide⟩ 2 ⟨0, 0, 0, 0⟩, .openFor 1 (some 8) 2] := by
  intro h
  obtain ⟨-, h⟩ := h _ rfl
  obtain ⟨-, h⟩ := h _ rfl
  obtain ⟨hsound, -⟩ := h _ rfl
  obtain ⟨i, -, hi, hfree⟩ := (hsound _ rfl).free (by decide)
  obtain rfl : 1 = i := Int.ofNat_inj.mp hi
  exact absurd hfree (by decide)

end FdTables
end HelinKern
