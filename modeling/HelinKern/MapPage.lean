import HelinKern.Mmu

/-! `arch_mmu_mapPage` of `src/arch/x86/mmu.c` on i386 with the loads and stores it makes. It works on the directory that is
    loaded, whatever address space it is given. The entry 1023 of a directory leads to the directory itself, so that the
    directory lies at `0xFFFFF000` and the table of its entry `i` at `0xFFC00000 + 4096 * i`. -/

namespace HelinKern
namespace Mmu

def ptAddr (pdIndex ptIndex : Nat) : Nat := 0xFFC00000 + 4096 * pdIndex + 4 * ptIndex

def pdAddr (pdIndex : Nat) : Nat := 0xFFFFF000 + 4 * pdIndex

def loadEntry (m : Mmu) (pd vaddr : Nat) : Option Entry :=
  (m.translate pd vaddr).map fun a => .ofWord (Word.read m.mem a.phys)

/-- The kernel writes an entry. It never sets `CR0.WP`, so that it can write to every page that is present. -/
def storeEntry (m : Mmu) (pd vaddr : Nat) (e : Entry) : Option Mmu :=
  (m.translate pd vaddr).map fun a => { m with mem := Word.write m.mem a.phys e.toWord }

def clearTable (m : Mmu) (pd pdIndex : Nat) : Option Mmu :=
  (List.range 1024).foldlM (fun m i => m.storeEntry pd (ptAddr pdIndex i) .empty) m

def archMmuMapPage (m : Mmu) (pd vaddr pAddr : Nat) (flags : BitVec 12) : Option Mmu := do
  let pdIndex := pageDirectoryIndex vaddr
  let pde ← m.loadEntry pd (pdAddr pdIndex)
  let m ←
    if pde.has pgPresent then some m
    else do
      let (tablePhysical, m) := m.allocUnchecked
      let m ← m.storeEntry pd (pdAddr pdIndex) (.of tablePhysical (flags ||| pgPresent ||| pgWrite))
      m.clearTable pd pdIndex
  m.storeEntry pd (ptAddr pdIndex (pageTableIndex vaddr)) (.of pAddr flags)

end Mmu
end HelinKern
