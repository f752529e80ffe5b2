import HelinKern.Frames
import HelinKern.Lib.Paged
import HelinKern.Thread

/-! Paging on i386: `src/arch/x86/mmu.c`, the copy-on-write branch of the page fault handler in
    `src/arch/x86/gdt.c` and `sbrk` of `src/mm/alloc.c`.

Page directories and page tables lie in physical memory, and an address space is known by the number of the
page that holds its directory. `CHANGE_PD` and the recursive entry 1023 are how the code reaches the tables
of another address space; here a function is given the directory it works on. -/

namespace HelinKern
open Paged

/-! ### The page-directory pool -/

def kernPdAreaBegin (kernelEnd : Nat) : Nat := (kernelEnd + 8192 + 4095) % wordSize / 4096 * 4096

def kernPdAreaSize : Nat := 0x10000a

def pgPresent : BitVec 12 := 0x001#12
def pgWrite : BitVec 12 := 0x002#12
def pgUser : BitVec 12 := 0x004#12
def pg4MB : BitVec 12 := 0x080#12
def pgOwned : BitVec 12 := 0x200#12

structure Entry where
  frame : Nat
  flags : BitVec 12
  deriving DecidableEq, Repr

namespace Entry

def ofWord (w : Nat) : Entry := ⟨w / 4096, BitVec.ofNat 12 w⟩

def toWord (e : Entry) : Nat := 4096 * e.frame + e.flags.toNat

def empty : Entry := ⟨0, 0⟩

def of (pAddr : Nat) (flags : BitVec 12) : Entry := ⟨pAddr / 4096, BitVec.ofNat 12 pAddr ||| flags⟩

def has (e : Entry) (flag : BitVec 12) : Bool := e.flags &&& flag = flag

end Entry

def pageDirectoryIndex (vaddr : Nat) : Nat := vaddr / 4194304 % 1024

def pageTableIndex (vaddr : Nat) : Nat := vaddr / 4096 % 1024

def getVirtualAddress (i j : Nat) : Nat := i * 4194304 + j * 4096

def kernelPg : Nat := kernPageDirectory / 4096

/-- What happens to page frames; `missing` is a `-1` of `alloc_getPage` that is used as an address. -/
inductive FrameEvent
  | alloc (frame : Nat)
  | free (frame : Nat)
  | missing
  deriving DecidableEq, Repr

/-- Physical memory and the frame allocator. `log` lists what happened to frames, the last event first. -/
structure Mmu where
  mem : Word.Memory
  frames : Frames
  kernelEnd : Nat
  log : List FrameEvent

namespace Mmu

def entry (m : Mmu) (p j : Nat) : Entry := .ofWord (word m.mem p j)

def setEntry (m : Mmu) (p j : Nat) (e : Entry) : Mmu := { m with mem := setWord m.mem p j e.toWord }

def allocPage (m : Mmu) : Option Nat × Mmu :=
  match m.frames.allocGetPage with
  | (none, frames) => (none, { m with frames })
  | (some addr, frames) => (some addr, { m with frames, log := .alloc (addr / 4096) :: m.log })

def allocUnchecked (m : Mmu) : Nat × Mmu :=
  match m.allocPage with
  | (none, m) => (0xFFFFFFFF, { m with log := .missing :: m.log })
  | (some addr, m) => (addr, m)

def freePage (m : Mmu) (frame : Nat) : Mmu :=
  { m with frames := m.frames.allocFreePage (4096 * frame), log := .free frame :: m.log }

def addTable (m : Mmu) (pd i : Nat) (flags : BitVec 12) : Mmu :=
  if (m.entry pd i).has pgPresent then m
  else
    let (table, m) := m.allocUnchecked
    let m := m.setEntry pd i (.of table (flags ||| pgPresent ||| pgWrite))
    { m with mem := fill m.mem (m.entry pd i).frame fun _ => 0 }

def addPageToPd (m : Mmu) (pd vaddr pAddr : Nat) (flags : BitVec 12) : Mmu :=
  let m := m.addTable pd (pageDirectoryIndex vaddr) flags
  m.setEntry (m.entry pd (pageDirectoryIndex vaddr)).frame (pageTableIndex vaddr) (.of pAddr flags)

/-- `remove_page`: where the directory entry is `0` nothing is mapped. -/
def removePage (m : Mmu) (pd vaddr : Nat) : Mmu :=
  if m.entry pd (pageDirectoryIndex vaddr) = .empty then m
  else m.setEntry (m.entry pd (pageDirectoryIndex vaddr)).frame (pageTableIndex vaddr) .empty

def archMmuUnmap (m : Mmu) (pd vaddr pageCount : Nat) : Mmu :=
  (List.range pageCount).foldl (fun m i => m.removePage pd ((vaddr + i * 4096) % wordSize)) m

/-! ### Address spaces -/

/-- The entries `arch_mmu_init` writes into `kernel_pg`: pages of 4 MB for the memory below the kernel end and
    16 MB more, open to user processes, and the recursive entry. -/
def bootEntry (kernelEnd i : Nat) : Entry :=
  if i = 1023 then .of kernPageDirectory (pgPresent ||| pgWrite)
  else if i < kernelEnd / 4194304 + 4 then .of (i * 4194304) (pgPresent ||| pgWrite ||| pg4MB ||| pgUser)
  else .empty

def archMmuInit (m : Mmu) : Mmu :=
  let mem := fill m.mem kernelPg fun i => (bootEntry m.kernelEnd i).toWord
  let poolBegin := kernPdAreaBegin m.kernelEnd
  { m with mem := fun a => if poolBegin ≤ a ∧ a < poolBegin + kernPdAreaSize then 0 else mem a }

def newEntry (m : Mmu) (pd i : Nat) : Entry :=
  let kernel := m.entry kernelPg i
  if i < 256 then ⟨kernel.frame, kernel.flags &&& ~~~pgOwned⟩
  else if i < 960 then .empty
  else if i < 1023 then ⟨kernel.frame, kernel.flags &&& ~~~pgOwned⟩
  else .of (4096 * pd) (pgPresent ||| pgWrite)

def pool (m : Mmu) : List Nat := List.range' (kernPdAreaBegin m.kernelEnd / 4096) ((kernPdAreaSize + 4095) / 4096)

/-- `arch_mmu_newAspace`: the first directory of the pool that starts with `0`; `none` is NULL. -/
def archMmuNewAspace (m : Mmu) : Option (Nat × Mmu) :=
  (m.pool.find? fun pd => word m.mem pd 0 = 0).map fun pd =>
    (pd, { m with mem := fill m.mem pd fun i => (m.newEntry pd i).toWord })

/-- A loop over indices, each turn of which is evaluated before the next one. -/
def loop (f : Mmu → Nat → Mmu) : List Nat → Mmu → Mmu
  | [], m => m
  | i :: is, m =>
    match f m i with
    | ⟨mem, frames, kernelEnd, log⟩ => loop f is ⟨mem, frames, kernelEnd, log⟩

/-- `PG_PRESENT` of an entry, which is in its first byte. -/
def present (m : Mmu) (p j : Nat) : Bool := (m.mem (4096 * p + 4 * j)).toNat % 2 = 1

def duplicatePage (parent child i : Nat) (m : Mmu) (j : Nat) : Mmu :=
  let e := m.entry (m.entry parent i).frame j
  let virt := getVirtualAddress i j
  if m.present (m.entry parent i).frame j then
    if e.has pgOwned then
      (m.addPageToPd child virt (4096 * e.frame) (pgPresent ||| pgUser ||| pgOwned)).addPageToPd parent virt
        (4096 * e.frame) (pgPresent ||| pgUser ||| pgOwned)
    else m.addPageToPd child virt (4096 * e.frame) e.flags
  else m

def duplicateTable (parent child : Nat) (m : Mmu) (i : Nat) : Mmu :=
  if m.present parent i then loop (duplicatePage parent child i) (List.range 1024) m else m

def archMmuDuplicate (m : Mmu) (parent child : Nat) : Mmu :=
  loop (duplicateTable parent child) (List.range' 256 767) m

def destroyPage (pd : Nat) (all : Bool) (i : Nat) (m : Mmu) (j : Nat) : Mmu :=
  let table := (m.entry pd i).frame
  let e := m.entry table j
  if m.present table j && e.has pgOwned && (all || e.has pgWrite) then
    (m.freePage e.frame).setEntry table j .empty
  else m

/-- The table itself is freed if its entry has `PG_OWNED`. -/
def destroyTable (pd : Nat) (all : Bool) (m : Mmu) (i : Nat) : Mmu :=
  if m.present pd i then
    let m := loop (destroyPage pd all i) (List.range 1024) m
    if (m.entry pd i).has pgOwned then (m.freePage (m.entry pd i).frame).setEntry pd i .empty else m
  else m

def archMmuDestroyAspace (m : Mmu) (pd : Nat) (all : Bool) : Mmu :=
  loop (destroyTable pd all) (List.range' 256 320) m

/-! ### User accesses -/

def archMmuGetPhysical (m : Mmu) (pd vaddr : Nat) : Nat :=
  let pde := m.entry pd (pageDirectoryIndex vaddr)
  let pte := m.entry pde.frame (pageTableIndex vaddr)
  if pde = .empty then 0
  else if !pte.has pgPresent ∧ vaddr ≤ m.kernelEnd then vaddr
  else 4096 * pte.frame + vaddr % 4096

def isAccessable (m : Mmu) (pd ptr : Nat) : Bool := m.archMmuGetPhysical pd ptr ≠ 0

/-- `handle_COW` for a fault on a present page of a process whose parent is given; `none` is `false`. -/
def handleCOW (m : Mmu) (pd : Nat) (parent : Option Nat) (addr : Nat) : Option Mmu :=
  let addr := addr / 4096 * 4096
  let phys := m.archMmuGetPhysical pd addr
  if parent = none then none
  else if phys = 0 then none
  else
    let (physOfCopy, m) := m.allocUnchecked
    some ({ m with mem := copy m.mem (phys / 4096) (physOfCopy / 4096) }.addPageToPd pd addr physOfCopy
      (pgPresent ||| pgWrite ||| pgUser ||| pgOwned))

/-- What the processor finds for an address: the physical address and what it allows to a user process. -/
structure Access where
  phys : Nat
  user : Bool
  write : Bool

/-- The page walk of the processor, with pages of 4 KB and of 4 MB; `none` if a page is not present. -/
def translate (m : Mmu) (pd vaddr : Nat) : Option Access :=
  let pde := m.entry pd (pageDirectoryIndex vaddr)
  let pte := m.entry pde.frame (pageTableIndex vaddr)
  if !pde.has pgPresent then none
  else if pde.has pg4MB then
    some ⟨pde.frame / 1024 * 4194304 + vaddr % 4194304, pde.has pgUser, pde.has pgWrite⟩
  else if !pte.has pgPresent then none
  else some ⟨4096 * pte.frame + vaddr % 4096, pde.has pgUser && pte.has pgUser, pde.has pgWrite && pte.has pgWrite⟩

def userRead (m : Mmu) (pd vaddr : Nat) : Option (BitVec 8) :=
  match m.translate pd vaddr with
  | none => none
  | some a => if a.user then some (m.mem a.phys) else none

def userWrite (m : Mmu) (pd vaddr : Nat) (v : BitVec 8) : Option Mmu :=
  match m.translate pd vaddr with
  | none => none
  | some a => if a.user && a.write then some { m with mem := Function.update m.mem a.phys v } else none

/-- A store of a user process: a write to a page that is present but does not allow it goes to `handle_COW`
    and is tried again. `none` is a store that does not take place. -/
def userStore (m : Mmu) (pd : Nat) (parent : Option Nat) (vaddr : Nat) (v : BitVec 8) : Option Mmu :=
  match m.userWrite pd vaddr v with
  | some m => some m
  | none =>
    if (m.translate pd vaddr).isNone then none
    else (m.handleCOW pd parent vaddr).bind fun m => m.userWrite pd vaddr v

/-! ### What an address space maps -/

/-- The page table entry of `pd` for the place `i`, `j`, if it is present. -/
def pte (m : Mmu) (pd i j : Nat) : Option Entry :=
  if (m.entry pd i).has pgPresent && (m.entry (m.entry pd i).frame j).has pgPresent then
    some (m.entry (m.entry pd i).frame j)
  else none

inductive PageCall
  | newAspace
  | mapPage (pd vaddr pAddr : Nat) (flags : BitVec 12)
  | unmap (pd vaddr pageCount : Nat)

def call (m : Mmu) : PageCall → Mmu
  | .newAspace => (m.archMmuNewAspace.map Prod.snd).getD m
  | .mapPage pd vaddr pAddr flags => m.addPageToPd pd vaddr pAddr flags
  | .unmap pd vaddr pageCount => m.archMmuUnmap pd vaddr pageCount

def built (m : Mmu) (calls : List PageCall) : Mmu := calls.foldl call m.archMmuInit

def backing (m : Mmu) (pd i j : Nat) : Option (Nat × Bool) := (m.pte pd i j).map fun e => (e.frame, e.has pgOwned)

/-! ### `sbrk` -/

def userOffset : Nat := 0x40000000

def memoryEnd : Nat := 0xFFC00000

structure Brk where
  brkEnd : Nat
  brkNextUnallocatedPageBegin : Nat
  deriving DecidableEq, Repr

def sbrkLoop (pd : Nat) : Nat → Mmu → Nat → Bool × Mmu × Nat
  | 0, m, next => (true, m, next)
  | n + 1, m, next =>
    if memoryEnd - 4096 < (next + 4096) % wordSize then (false, m, next)
    else
      match m.allocPage with
      | (none, m) => (false, m, next)
      | (some pAddr, m) =>
        -- `(int)p_addr < 0`
        if 2147483648 ≤ pAddr then (false, m, next)
        else sbrkLoop pd n (m.addPageToPd pd next pAddr (pgPresent ||| pgWrite ||| pgUser ||| pgOwned)) (next + 4096)

def sbrkPage (m : Mmu) (pd : Nat) (next : Nat) (pageCount : Nat) : Bool × Mmu × Nat :=
  if m.frames.totalPages + m.frames.usedPhysMem / 4096 < pageCount then (false, m, next)
  else sbrkLoop pd pageCount m next

/-- `sbrk`; `none` is the `-1` it returns when a page is missing. -/
def sbrk (m : Mmu) (pd : Nat) (b : Brk) (nBytes : Int) : Option Nat × Mmu × Brk :=
  if nBytes ≤ 0 then (some b.brkEnd, m, b)
  else
    let remaining : Int := b.brkNextUnallocatedPageBegin - b.brkEnd
    if nBytes ≤ remaining then (some b.brkEnd, m, { b with brkEnd := b.brkEnd + nBytes.toNat })
    else
      match m.sbrkPage pd b.brkNextUnallocatedPageBegin ((nBytes - remaining - 1).toNat / 4096 + 1) with
      | (false, m, next) => (none, m, ⟨b.brkEnd, next⟩)
      | (true, m, next) => (some b.brkEnd, m, ⟨b.brkEnd + nBytes.toNat, next⟩)

def allocInitProcess (m : Mmu) (pd : Nat) (size : Int) : Mmu × Brk := (m.sbrk pd ⟨userOffset, userOffset⟩ size).2

end Mmu

end HelinKern
