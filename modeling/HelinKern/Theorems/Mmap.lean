import HelinKern.Mmap
import HelinKern.Theorems.Aspace

/-! `sys_mmap` and `sys_munmap` as inverse calls: the frames that a mapping takes, and what unmapping gives back. -/

namespace HelinKern
namespace Mmu
open List

variable {m m' : Mmu} {pd start : Nat}

/-- The page table that mapping a page at `vaddr` allocates, if any. -/
def newTable (m : Mmu) (pd vaddr : Nat) : List Nat :=
  if (m.entry pd (pageDirectoryIndex vaddr)).has pgPresent then []
  else (m.allocPage.1.map (· / 4096)).toList

def newTables (pd start : Nat) : Nat → Nat → Mmu → List Nat
  | 0, _, _ => []
  | n + 1, i, m =>
    match m.allocPage with
    | (none, _) => []
    | (some page, m) =>
      m.newTable pd ((start + i * 4096) % wordSize) ++ newTables pd start n (i + 1)
        (m.addPageToPd pd ((start + i * 4096) % wordSize) page (pgPresent ||| pgWrite ||| pgUser ||| pgOwned))

/-- `m'` is `m` again, apart from the frames of `tables`: the user translations, the frame bitmap and `usedPhysMem`. -/
structure Restored (pd : Nat) (tables : List Nat) (m m' : Mmu) : Prop where
  translations : ∀ vaddr, userOffset ≤ vaddr → vaddr < memoryEnd → m'.translate pd vaddr = m.translate pd vaddr
  bitmap : ∀ bit, (m.frames.allocStart + bit * pageSize) % wordSize / 4096 ∉ tables →
    Bitmap.bitAt m'.frames.physMap bit = Bitmap.bitAt m.frames.physMap bit
  usedPhysMem : m'.frames.usedPhysMem % wordSize = (m.frames.usedPhysMem + 4096 * tables.length) % wordSize

def Takes (n : Nat) (m m' : Mmu) : Prop :=
  m'.frames.usedPhysMem % wordSize = (m.frames.usedPhysMem + 4096 * n) % wordSize

theorem Takes.trans {n n' : Nat} {m'' : Mmu} (h : Takes n m m') (h' : Takes n' m' m'') : Takes (n + n') m m'' := by
  unfold Takes wordSize at *
  omega

theorem Takes.of_frames (h : m'.frames = m.frames) : Takes 0 m m' := by
  unfold Takes
  rw [h, Nat.add_zero]

theorem allocGetPage_usedPhysMem {s s' : Frames} {addr : Nat} (h : s.allocGetPage = (some addr, s')) :
    s'.usedPhysMem = (s.usedPhysMem + 4096) % wordSize := by
  unfold Frames.allocGetPage at h
  split at h
  · cases h
    rfl
  split at h
  · cases h
  · cases h
    rfl

theorem allocPage_takes {page : Option Nat} (h : m.allocPage = (page, m')) : Takes page.toList.length m m' := by
  cases page with
  | none => exact .of_frames (congrArg Mmu.frames (allocPage_none h))
  | some addr =>
    unfold Takes
    rw [allocGetPage_usedPhysMem (allocPage_get h), Nat.mod_mod]
    rfl

theorem allocUnchecked_takes (m : Mmu) : Takes m.allocPage.1.toList.length m m.allocUnchecked.2 := by
  unfold allocUnchecked
  split
  next hnone =>
    have h := allocPage_takes hnone
    rw [hnone]
    exact h
  next hsome =>
    have h := allocPage_takes hsome
    rw [hsome]
    exact h

theorem addPageToPd_takes (m : Mmu) (pd vaddr pAddr : Nat) (flags : BitVec 12) :
    Takes (m.newTable pd vaddr).length m (m.addPageToPd pd vaddr pAddr flags) := by
  unfold newTable addPageToPd addTable
  split
  · exact .of_frames rfl
  · have h := allocUnchecked_takes m
    rw [Option.toList_map, length_map]
    exact h

theorem mmapLoop_takes {n i : Nat} (h : mmapLoop pd start n i m = (true, m')) :
    Takes (n + (newTables pd start n i m).length) m m' := by
  induction n generalizing i m with
  | zero =>
    cases h
    exact .of_frames rfl
  | succ n ih =>
    unfold mmapLoop at h
    split at h
    · cases h
    rename_i page m₁ hpage
    have hpages := ((allocPage_takes hpage).trans (addPageToPd_takes _ _ _ _ _)).trans (ih h)
    unfold newTables
    rw [hpage, length_append]
    rw [Option.toList_some, length_singleton] at hpages
    convert hpages using 1
    omega

theorem frames_removePage (m : Mmu) (pd vaddr : Nat) : (m.removePage pd vaddr).frames = m.frames := by
  unfold removePage
  split
  · rfl
  · rfl

theorem frames_archMmuUnmap (m : Mmu) (pd vaddr pageCount : Nat) :
    (m.archMmuUnmap pd vaddr pageCount).frames = m.frames := by
  unfold archMmuUnmap
  induction pageCount with
  | zero => rfl
  | succ n ih =>
    rw [range_succ, foldl_append, foldl_cons, foldl_nil, frames_removePage, ih]

theorem sysMmap_ok {addr size : Int} {flags : BitVec 32} (h : m.sysMmap pd addr size flags = (.ok start, m')) :
    mmapLoop pd start (mmapPages size).toNat 0 m = (true, m') := by
  unfold sysMmap at h
  split at h
  · cases h
  split at h
  · cases h
  next hloop =>
    cases h
    exact hloop

theorem mmapPages_pos {size : Int} (hpos : 0 < size) (hint : size < 2147483648) :
    0 < (mmapPages size).toNat ∧ (mmapPages size).toNat < 1048576 := by
  unfold mmapPages
  rw [Int.tdiv_eq_ediv_of_nonneg (by omega)]
  dsimp only
  split <;> omega

/-- A mapping and an unmapping of the same size leave the frames of all pages in use. -/
theorem mmap_munmap_leaks (m : Mmu) (pd : Nat) (addr : Int) (flags : BitVec 32) {size : Int} {start : Nat} {m' : Mmu}
    (hpos : 0 < size) (hint : size < 2147483648) (hmmap : m.sysMmap pd addr size flags = (.ok start, m')) :
    ¬Restored pd (newTables pd start (mmapPages size).toNat 0 m) m (m'.sysMunmap pd start size) ∧
      Takes ((mmapPages size).toNat + (newTables pd start (mmapPages size).toNat 0 m).length) m
        (m'.sysMunmap pd start size) := by
  have hunmap : Takes 0 m' (m'.sysMunmap pd start size) := .of_frames (frames_archMmuUnmap m' pd start _)
  have htakes := (mmapLoop_takes (sysMmap_ok hmmap)).trans hunmap
  refine ⟨fun hrestored => ?_, htakes⟩
  have hused := hrestored.usedPhysMem
  have hpages := mmapPages_pos hpos hint
  unfold Takes wordSize at htakes
  unfold wordSize at hused
  omega

def oneAspace : Mmu := small.built [.newAspace]

theorem oneAspace_sysMmap : oneAspace.sysMmap 514 0 1 0 = (.ok userMmapStart, (oneAspace.sysMmap 514 0 1 0).2) := by
  have hok : (oneAspace.sysMmap 514 0 1 0).1.toOption = some userMmapStart := by decide +kernel
  cases hres : (oneAspace.sysMmap 514 0 1 0).1 with
  | error e =>
    rw [hres] at hok
    cases hok
  | ok start =>
    rw [hres] at hok
    cases hok
    rfl

/-- Two pages and a page table are in use after one byte was mapped and unmapped. -/
theorem mmap_munmap_leaks_byte :
    ¬Restored 514 (newTables 514 userMmapStart 2 0 oneAspace) oneAspace
      ((oneAspace.sysMmap 514 0 1 0).2.sysMunmap 514 userMmapStart 1) :=
  (mmap_munmap_leaks oneAspace 514 0 0 (by decide) (by decide) oneAspace_sysMmap).1

/-- One byte is mapped and unmapped again: the second page stays. -/
theorem mmap_munmap_keeps_page :
    ∃ m', oneAspace.sysMmap 514 0 1 0 = (.ok userMmapStart, m') ∧
      ¬Restored 514 (newTables 514 userMmapStart 2 0 oneAspace) oneAspace (m'.sysMunmap 514 userMmapStart 1) := by
  refine ⟨_, oneAspace_sysMmap, fun hrestored => ?_⟩
  have hafter : (((oneAspace.sysMmap 514 0 1 0).2.sysMunmap 514 userMmapStart 1).translate 514
      (userMmapStart + 4096)).isSome = true := by
    decide +kernel
  rw [hrestored.translations _ (by decide) (by decide)] at hafter
  cases hafter

end Mmu
end HelinKern
