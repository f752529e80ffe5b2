import HelinKern.Theorems.AspaceCalls
import HelinKern.CopyOnWrite

/-! `handle_COW` never asks for the flags of the page: every fault on a present page of a process with a parent ends with a
    new page that the process may write. -/

namespace HelinKern
namespace Mmu

variable {m : Mmu} {pd addr : Nat} {faulter : Option (Option Nat)} {present : Bool}

structure Tested (m : Mmu) (pd : Nat) (faulter : Option (Option Nat)) (addr : Nat) (present : Bool) : Prop where
  present : present = true
  parent : ∃ parent, faulter = some (some parent)
  table : (m.entry pd (pageDirectoryIndex addr)).has pgPresent = true
  phys : m.isAccessable pd (addr / 4096 * 4096) = true

theorem Tested.remapped (h : m.Tested pd faulter addr present) :
    ∃ m', m.handleCOWFault pd faulter addr present = .remapped m' := by
  obtain ⟨rfl, ⟨parent, rfl⟩, htable, hphys⟩ := h
  have hne : m.archMmuGetPhysical pd (addr / 4096 * 4096) ≠ 0 := by simpa [isAccessable] using hphys
  unfold handleCOWFault handleCOW
  simp [htable, hne]

theorem not_remapped (h : ¬m.Tested pd faulter addr present) (m' : Mmu) :
    m.handleCOWFault pd faulter addr present ≠ .remapped m' := by
  intro heq
  refine h ?_
  unfold handleCOWFault at heq
  cases present with
  | false => cases heq
  | true =>
    rcases faulter with _ | _ | parent
    · cases heq
    · cases heq
    · dsimp only at heq
      simp only [Bool.not_true, Bool.false_eq_true, if_false] at heq
      split at heq
      · cases heq
      rename_i hloads
      by_cases hphys : m.archMmuGetPhysical pd (addr / 4096 * 4096) = 0
      · simp [handleCOW, hphys] at heq
      refine ⟨rfl, ⟨parent, rfl⟩, ?_, by simpa [isAccessable] using hphys⟩
      by_contra htable
      refine hloads ⟨fun hempty => hphys ?_, by simpa using htable⟩
      unfold archMmuGetPhysical
      rw [pageDirectoryIndex_page, hempty]
      rfl

/-- What a fault may do: a page is mapped anew only if it waits for its copy, and on every other page nothing happens to
    memory, where the page tables are, and to the frames. -/
structure RepairsOnlyCow (m : Mmu) (pd : Nat) (faulter : Option (Option Nat)) (addr : Nat) (present : Bool) : Prop where
  remaps : ∀ m', m.handleCOWFault pd faulter addr present = .remapped m' → m.CowPage pd addr = true
  keeps : m.CowPage pd addr = false → (m.handleCOWFault pd faulter addr present).after m = m

/-- Only pages that wait for a copy are repaired, exactly if the tests let no other page through. -/
theorem repairs_only_cow_iff (m : Mmu) (pd : Nat) (faulter : Option (Option Nat)) (addr : Nat) (present : Bool) :
    m.RepairsOnlyCow pd faulter addr present ↔ (m.Tested pd faulter addr present → m.CowPage pd addr = true) := by
  constructor
  · intro h htested
    obtain ⟨m', hm'⟩ := htested.remapped
    exact h.remaps m' hm'
  · intro h
    by_cases htested : m.Tested pd faulter addr present
    · refine ⟨fun _ _ => h htested, fun hcow => ?_⟩
      rw [h htested] at hcow
      cases hcow
    refine ⟨fun m' hm' => absurd hm' (not_remapped htested m'), fun _ => ?_⟩
    cases heq : m.handleCOWFault pd faulter addr present with
    | remapped m' => exact absurd heq (not_remapped htested m')
    | refused => rfl
    | ignored => rfl
    | faults => rfl

/-- A process, after `ksbrk_page` mapped the first page of the kernel heap. -/
def heapPage : Option (Nat × Mmu) :=
  let (pAddr, m) := small.archMmuInit.allocUnchecked
  (m.addPageToPd kernelPg 0x2000000 pAddr (pgPresent ||| pgWrite)).archMmuNewAspace

/-- The process stores to that page. The fault takes a frame, to which the page table of the kernel heap then leads, and
    the directory still keeps the process out, so that it faults again. -/
theorem repairs_kernel_heap :
    ∃ pd m m', heapPage = some (pd, m) ∧ (m.translate pd 0x2000123).map (fun a => (a.user, a.phys)) = some (false, 0x308123) ∧
      m.handleCOWFault pd (some (some 1)) 0x2000123 true = .remapped m' ∧
      (m'.translate kernelPg 0x2000123).map (fun a => (a.user, a.phys)) = some (false, 0x30A123) ∧
      m'.frames.usedPhysMem = m.frames.usedPhysMem + 4096 ∧ ¬m.RepairsOnlyCow pd (some (some 1)) 0x2000123 true := by
  have heval : (heapPage.bind fun r => (r.2.handleCOW r.1 (some 1) 0x2000123).map fun m' =>
      decide ((r.2.translate r.1 0x2000123).map (fun a => (a.user, a.phys)) = some (false, 0x308123) ∧
        r.2.CowPage r.1 0x2000123 = false ∧ (r.2.entry r.1 (pageDirectoryIndex 0x2000123)).has pgPresent = true ∧
        (m'.translate kernelPg 0x2000123).map (fun a => (a.user, a.phys)) = some (false, 0x30A123) ∧
        m'.frames.usedPhysMem = r.2.frames.usedPhysMem + 4096)) = some true := by decide +kernel
  obtain ⟨⟨pd, m⟩, hpage, heval⟩ := Option.bind_eq_some_iff.mp heval
  obtain ⟨m', hcow, heval⟩ := Option.map_eq_some_iff.mp heval
  obtain ⟨hbefore, hpage', htable, hafter, hused⟩ := of_decide_eq_true heval
  have hremapped : m.handleCOWFault pd (some (some 1)) 0x2000123 true = .remapped m' := by
    unfold handleCOWFault
    simp [htable, hcow]
  refine ⟨pd, m, m', hpage, hbefore, hremapped, hafter, hused, fun h => ?_⟩
  rw [h.remaps m' hremapped] at hpage'
  cases hpage'

end Mmu
end HelinKern
