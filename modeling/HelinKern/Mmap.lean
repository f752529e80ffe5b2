import HelinKern.Mmu
import HelinKern.Syscall

/-! Anonymous memory: `arch_mmu_query` and `arch_mmu_processFlags` of `src/arch/x86/mmu.c`, and `sys_mmap` for no file,
    `sys_munmap` and `sys_mprotect` of `src/syscall.c`. -/

namespace HelinKern

def eNOMEM : Int := 12

namespace Mmu
open Kernel

def userMmapStart : Nat := 0x80000000

/-- The inner loop of `arch_mmu_query` over the last `n` entries of a table: the entry at which enough pages are
    free, or the free pages counted so far. -/
def queryTable (m : Mmu) (table sizeInPages : Nat) : Nat → Nat → Option Nat × Nat
  | 0, foundedPages => (none, foundedPages)
  | n + 1, foundedPages =>
    let ptIndex := 1024 - (n + 1)
    let foundedPages := if m.entry table ptIndex = .empty then foundedPages + 1 else 0
    if foundedPages = sizeInPages then (some ptIndex, foundedPages) else m.queryTable table sizeInPages n foundedPages

/-- `pd[pd_index]`: the loop goes on to the index 1024, and behind `0xFFFFF000` the address wraps around to 0. -/
def directoryEntry (m : Mmu) (pd pdIndex : Nat) : Entry := if pdIndex < 1024 then m.entry pd pdIndex else m.entry 0 0

/-- The outer loop of `arch_mmu_query` with `n` turns left; `none` is the `-1` behind it. The table it reads is that of
    the index `pt`, which is one behind `pd_index` after the first turn. -/
def queryFrom (m : Mmu) (pd sizeInPages : Nat) : Nat → (pdIndex pt ptIndex foundedPages : Nat) → Option Nat
  | 0, _, _, _, _ => none
  | n + 1, pdIndex, pt, ptIndex, foundedPages =>
    if m.directoryEntry pd pdIndex = .empty then some (getVirtualAddress pdIndex ptIndex % wordSize)
    else
      match m.queryTable (m.entry pd pt).frame sizeInPages (1024 - ptIndex) foundedPages with
      | (some ptIndex, _) => some (getVirtualAddress pdIndex ptIndex % wordSize)
      | (none, foundedPages) => m.queryFrom pd sizeInPages n (pdIndex + 1) pdIndex 0 foundedPages

def archMmuQuery (m : Mmu) (pd start size : Nat) : Option Nat :=
  let pdIndex := pageDirectoryIndex start
  let sizeInPages := if size / 4096 = 0 then 1 else size / 4096
  m.queryFrom pd sizeInPages (1025 - pdIndex) pdIndex pdIndex (pageTableIndex start) 0

def toWord (n : Int) : Nat := (n % 4294967296).toNat

/-- The loop of `sys_mmap` from the page `i` on, with `n` pages left; `false` is that a page is missing. The pages
    mapped before stay. -/
def mmapLoop (pd start : Nat) : Nat → Nat → Mmu → Bool × Mmu
  | 0, _, m => (true, m)
  | n + 1, i, m =>
    match m.allocPage with
    | (none, m) => (false, m)
    | (some page, m) =>
      mmapLoop pd start n (i + 1)
        (m.addPageToPd pd ((start + i * 4096) % wordSize) page (pgPresent ||| pgWrite ||| pgUser ||| pgOwned))

def mmapPages (size : Int) : Int :=
  let pages := size.tdiv 4096 + 2
  if pages = 0 then 1 else pages

def mmapWhere (m : Mmu) (pd : Nat) (addr size : Int) (flags : BitVec 32) : Except Int Nat :=
  if size = 0 then .error (-eINVAL)
  else if flags &&& 1 = 1 ∧ flags &&& 2 = 2 then .error (-eINVAL)
  else if flags &&& 8 = 8 ∧ addr = 0 then .error (-eINVAL)
  else if flags &&& 8 = 8 ∧ (m.archMmuQuery pd (toWord addr) (toWord size)).getD 0xFFFFFFFF ≠ toWord addr then
    .error (-eNOMEM)
  else
    match m.archMmuQuery pd (if addr ≠ 0 then toWord addr else userMmapStart) (toWord size) with
    | none => .error (-eNOMEM)
    | some start => .ok start

def sysMmap (m : Mmu) (pd : Nat) (addr size : Int) (flags : BitVec 32) : Except Int Nat × Mmu :=
  match m.mmapWhere pd addr size flags with
  | .error e => (.error e, m)
  | .ok start =>
    match mmapLoop pd start (mmapPages size).toNat 0 m with
    | (false, m) => (.error (-eNOMEM), m)
    | (true, m) => (.ok start, m)

def sysMunmap (m : Mmu) (pd ptr : Nat) (size : Int) : Mmu := m.archMmuUnmap pd ptr (toWord (size.tdiv 4096 + 1))

def protWrite : BitVec 32 := 2

def protUser : BitVec 32 := 4

def protOwned : BitVec 32 := 12

def archMmuProcessFlags (flags : BitVec 32) : BitVec 12 :=
  pgPresent ||| (if flags &&& protWrite = protWrite then pgWrite else 0) |||
    (if flags &&& protUser = protUser then pgUser else 0) ||| (if flags &&& protOwned = protOwned then pgOwned else 0)

def mprotectLoop (pd addr : Nat) (newFlags : BitVec 12) : Nat → Nat → Mmu → Int × Mmu
  | 0, _, m => (0, m)
  | n + 1, i, m =>
    let physAddr := m.archMmuGetPhysical pd ((addr + i * 4096) % wordSize)
    if physAddr = 0 ∨ physAddr = 0xFFFFFFFF then (-eNOMEM, m)
    else mprotectLoop pd addr newFlags n (i + 1) (m.addPageToPd pd ((addr + i * 4096) % wordSize) physAddr newFlags)

def mprotectPages (len : Nat) : Nat := if len / 4096 = 0 then 1 else len / 4096

def sysMprotect (m : Mmu) (pd addr len : Nat) (prot : BitVec 32) : Int × Mmu :=
  mprotectLoop pd addr (archMmuProcessFlags prot) (mprotectPages len) 0 m

end Mmu
end HelinKern
