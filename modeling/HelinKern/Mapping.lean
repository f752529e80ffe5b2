import HelinKern.Mmap
import HelinKern.Pipe
import HelinKern.Shm

/-! The calls that map memory into a process, with the pages they map: `sys_mmap` of `src/syscall.c` with and without a file,
    `fbdev_mmap` of `src/dev/fb.c`, and `shm_command` with 2 of `src/ipc/shm.c`. What `arch_mmu_query` answers is left open:
    `query start size` is an address, or `none` for -1. -/

namespace HelinKern

structure Mapping where
  mmu : Mmu
  pages : List Nat

namespace Mapping

def mapPage (s : Mapping) (pd vaddr pAddr : Nat) (flags : BitVec 12) : Mapping :=
  ⟨s.mmu.addPageToPd pd vaddr pAddr flags, s.pages ++ [vaddr / 4096]⟩

end Mapping

namespace Mmu
open Kernel

def anonLoop (pd start : Nat) : Nat → Nat → Mapping → Bool × Mapping
  | 0, _, s => (true, s)
  | n + 1, i, s =>
    match s.mmu.allocPage with
    | (none, m) => (false, { s with mmu := m })
    | (some page, m) =>
      anonLoop pd start n (i + 1) ({ s with mmu := m }.mapPage pd ((start + i * 4096) % wordSize) page
        (pgPresent ||| pgWrite ||| pgUser ||| pgOwned))

def mmapRefuses (size : Int) (flags : BitVec 32) : Bool := size = 0 ∨ (flags &&& 1 = 1 ∧ flags &&& 2 = 2)

def anonWhere (query : Nat → Nat → Option Nat) (addr size : Int) (flags : BitVec 32) : Except Int Nat :=
  if mmapRefuses size flags then .error (-eINVAL)
  else if flags &&& 8 = 8 ∧ addr = 0 then .error (-eINVAL)
  else if flags &&& 8 = 8 ∧ (query (toWord addr) (toWord size)).getD 0xFFFFFFFF ≠ toWord addr then .error (-eNOMEM)
  else
    match query (if addr ≠ 0 then toWord addr else userMmapStart) (toWord size) with
    | none => .error (-eNOMEM)
    | some start => .ok start

def sysMmapAnon (m : Mmu) (pd : Nat) (query : Nat → Nat → Option Nat) (addr size : Int) (flags : BitVec 32) :
    Except Int Nat × Mapping :=
  match anonWhere query addr size flags with
  | .error e => (.error e, ⟨m, []⟩)
  | .ok start =>
    let (mapped, s) := anonLoop pd start (mmapPages size).toNat 0 ⟨m, []⟩
    (if mapped then .ok start else .error (-eNOMEM), s)

/-- The loop for a file whose file system has no `mmap`: the result of `alloc_getPage` is not checked. -/
def fileLoop (pd start : Nat) : Nat → Nat → Mapping → Mapping
  | 0, _, s => s
  | n + 1, i, s =>
    let (pa, m) := s.mmu.allocUnchecked
    fileLoop pd start n (i + 1) ({ s with mmu := m }.mapPage pd ((start + i * 4096) % wordSize) pa
      (pgPresent ||| pgWrite ||| pgUser ||| pgOwned))

def fbLoop (pd start paddr : Nat) : Nat → Nat → Mapping → Mapping
  | 0, _, s => s
  | n + 1, i, s =>
    fbLoop pd start paddr n (i + 1) (s.mapPage pd ((start + i * 4096) % wordSize) ((paddr + i * 4096) % wordSize)
      (pgPresent ||| pgWrite ||| pgUser))

def fbdevMmap (m : Mmu) (pd : Nat) (query : Nat → Nat → Option Nat) (paddr : Nat) (size : Int) : Except Int Nat × Mapping :=
  match query userMmapStart (toWord size) with
  | none => (.error (-1), ⟨m, []⟩)
  | some start => (.ok start, fbLoop pd start paddr (size.tdiv 4096).toNat 0 ⟨m, []⟩)

def fileSize (node : VfsNode) (size : Int) : Int := if node.size < size then node.size else size

def fileWhere (query : Nat → Nat → Option Nat) (addr size : Int) : Nat :=
  (query (if addr ≠ 0 then toWord addr else userMmapStart) (toWord size)).getD 0xFFFFFFFF

/-- `sys_mmap` for the node of a descriptor; `fb` is the frame buffer, if the node is the device of it. -/
def sysMmapFile (m : Mmu) (pd : Nat) (query : Nat → Nat → Option Nat) (node : VfsNode) (fb : Option Nat) (gid uid : Int)
    (addr size : Int) (flags : BitVec 32) : Except Int Nat × Mapping :=
  if mmapRefuses size flags then (.error (-eINVAL), ⟨m, []⟩)
  else if !node.hasPerm .write gid uid then (.error (-eACCES), ⟨m, []⟩)
  else
    match fb with
    | some paddr => m.fbdevMmap pd query paddr size
    | none =>
      let size := fileSize node size
      let start := fileWhere query addr size
      (.ok start, fileLoop pd start (size.tdiv 4096 + 1).toNat 0 ⟨m, []⟩)

def shmatWhere (query : Nat → Nat → Option Nat) (obj : ShmObj) : Nat :=
  (query userMmapStart (toWord (obj.size + 4096))).getD 0xFFFFFFFF

def sysShmat (m : Mmu) (pd : Nat) (query : Nat → Nat → Option Nat) (k : Shm) (id : Int) : Option (Int × Shm × Mapping) :=
  let start := ((k.find id).1.map fun o => shmatWhere query (k.obj o)).getD 0
  (k.shmat id start).map fun (r, maps, k) =>
    (r, k, maps.foldl (fun s (page : Nat × Nat) => s.mapPage pd page.1 page.2 (pgPresent ||| pgWrite ||| pgUser)) ⟨m, []⟩)

end Mmu
end HelinKern
