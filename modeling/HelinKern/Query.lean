import HelinKern.MapPage

/-! `arch_mmu_query` of `src/arch/x86/mmu.c` on i386 with the loads it makes through the recursive entry of the directory that
    is loaded. A result `none` is a page fault, and `some none` is the `-1` behind the loops. -/

namespace HelinKern
namespace Mmu

/-- The inner loop over the last `n` entries of the table that is read: the entry at which enough pages are free, or the free
    pages counted so far. -/
def queryTableLoads (m : Mmu) (pd pt sizeInPages : Nat) : Nat → Nat → Option (Option Nat × Nat)
  | 0, foundedPages => some (none, foundedPages)
  | n + 1, foundedPages => do
    let ptIndex := 1024 - (n + 1)
    let e ← m.loadEntry pd (ptAddr pt ptIndex)
    let foundedPages := if e = .empty then foundedPages + 1 else 0
    if foundedPages = sizeInPages then some (some ptIndex, foundedPages)
    else m.queryTableLoads pd pt sizeInPages n foundedPages

/-- The outer loop with `n` turns left. `pt` is the index of the table that is read; it is set behind the inner loop, before
    `pd_index` goes up. The address of `pd[1024]` wraps around to 0. -/
def queryFromLoads (m : Mmu) (pd sizeInPages : Nat) : Nat → (pdIndex pt ptIndex foundedPages : Nat) → Option (Option Nat)
  | 0, _, _, _, _ => some none
  | n + 1, pdIndex, pt, ptIndex, foundedPages => do
    let e ← m.loadEntry pd (pdAddr pdIndex % wordSize)
    if e = .empty then some (some (getVirtualAddress pdIndex ptIndex % wordSize))
    else
      match ← m.queryTableLoads pd pt sizeInPages (1024 - ptIndex) foundedPages with
      | (some ptIndex, _) => some (some (getVirtualAddress pdIndex ptIndex % wordSize))
      | (none, foundedPages) => m.queryFromLoads pd sizeInPages n (pdIndex + 1) pdIndex 0 foundedPages

def archMmuQueryLoads (m : Mmu) (pd start size : Nat) : Option (Option Nat) :=
  let pdIndex := pageDirectoryIndex start
  let sizeInPages := if size / 4096 = 0 then 1 else size / 4096
  m.queryFromLoads pd sizeInPages (1025 - pdIndex) pdIndex pdIndex (pageTableIndex start) 0

end Mmu
end HelinKern
