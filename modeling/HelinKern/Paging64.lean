import HelinKern.Lib.Tables
import Mathlib.Data.BitVec

/-! Paging on x86_64: `arch_mmu_init`, `arch_mmu_mapPage` and `arch_mmu_getPhysical` of `src/arch/x86/mmu.c`. The entry 510 of
    the PML4 leads to the PML4 itself, and all tables are read and written through it. -/

namespace HelinKern
open Function

structure Entry64 where
  frame : BitVec 52
  flags : BitVec 12
  deriving DecidableEq, Repr

namespace Entry64

def empty : Entry64 := ⟨0, 0⟩

def ofPage (page : Nat) : Entry64 := ⟨BitVec.ofNat 52 page, 0⟩

def or (e : Entry64) (flags : BitVec 32) : Entry64 :=
  ⟨e.frame ||| (flags.signExtend 64 >>> 12).setWidth 52, e.flags ||| flags.setWidth 12⟩

def clean (e : Entry64) : Entry64 := ⟨e.frame, 0⟩

def page (e : Entry64) : Nat := e.frame.toNat % 1099511627776

def present (e : Entry64) : Bool := e.flags.getLsbD 0

def write (e : Entry64) : Bool := e.flags.getLsbD 1

def large (e : Entry64) : Bool := e.flags.getLsbD 7

def low (e : Entry64) : Nat := e.flags.toNat % 16

def toNat (e : Entry64) : Nat := 4096 * e.frame.toNat + e.flags.toNat

end Entry64

/-- Physical memory in pages of 512 words, the page of the PML4, and the frames that `alloc_getPage` hands out next. -/
structure Mmu64 where
  mem : Nat → Nat → Entry64
  cr3 : Nat
  frames : List Nat

namespace Mmu64

def pageIndex (v : Nat) : Nat := v / 4096 % 512
def ptIndex (v : Nat) : Nat := v / 2097152 % 512
def pdIndex (v : Nat) : Nat := v / 1073741824 % 512
def pdpIndex (v : Nat) : Nat := v / 549755813888 % 512

structure Access where
  page : Nat
  write : Bool

def translate (m : Mmu64) (v : Nat) : Option Access :=
  let pml4e := m.mem m.cr3 (pdpIndex v)
  let pdpe := m.mem pml4e.page (pdIndex v)
  let pde := m.mem pdpe.page (ptIndex v)
  let pte := m.mem pde.page (pageIndex v)
  if !pml4e.present || pml4e.large then none
  else if !pdpe.present then none
  else if pdpe.large then
    some ⟨pdpe.page / 262144 * 262144 + 512 * ptIndex v + pageIndex v, pml4e.write && pdpe.write⟩
  else if !pde.present then none
  else if pde.large then some ⟨pde.page / 512 * 512 + pageIndex v, pml4e.write && pdpe.write && pde.write⟩
  else if !pte.present then none
  else some ⟨pte.page, pml4e.write && pdpe.write && pde.write && pte.write⟩

def load (m : Mmu64) (v : Nat) : Option Entry64 := (m.translate v).map fun a => m.mem a.page (v % 4096 / 8)

/-- The kernel runs with `CR0.WP` set. -/
def store (m : Mmu64) (v : Nat) (e : Entry64) : Option Mmu64 :=
  (m.translate v).bind fun a => if a.write then some { m with mem := Tables.set m.mem a.page (v % 4096 / 8) e } else none

def clear (m : Mmu64) (v : Nat) : Option Mmu64 := (List.range 512).foldlM (fun m i => m.store (v + 8 * i) .empty) m

/-- `alloc_getPage`, whose result is not checked. -/
def allocGetPage (m : Mmu64) : Entry64 × Mmu64 :=
  match m.frames with
  | [] => (⟨BitVec.allOnes 52, BitVec.allOnes 12⟩, m)
  | frame :: frames => (.ofPage frame, { m with frames })

def pml4Addr : Nat := 0xffffff7fbfdfe000
def pdpAddr (pdpIndex : Nat) : Nat := 0xffffff7fbfc00000 + 0x1000 * pdpIndex
def pdAddr (pdpIndex pdIndex : Nat) : Nat := 0xffffff7f80000000 + 0x200000 * pdpIndex + 0x1000 * pdIndex
def ptAddr (pdpIndex pdIndex ptIndex : Nat) : Nat :=
  0xffffff0000000000 + 0x40000000 * pdpIndex + 0x200000 * pdIndex + 0x1000 * ptIndex

def tableFlags (flags : BitVec 32) : BitVec 32 := if 7 < flags.toInt then 7 else flags

/-- What is done with an entry of the PML4 and of the page directory pointer table: the table it leads to is made, with an
    entry 511 that leads to the table itself, or the flags of the entry are raised. -/
def enterTable (m : Mmu64) (entry table : Nat) (flags : BitVec 32) : Option Mmu64 := do
  let e ← m.load entry
  if e.present then
    if (e.low : Int) < flags.toInt then m.store entry (e.clean.or flags) else some m
  else
    let (new, m) := m.allocGetPage
    let m ← m.store entry (new.or flags)
    let m ← m.clear table
    m.store (table + 8 * 511) (new.or 3)

/-- What is done with an entry of the page directory. The entry 511 of the directory gets the address at which the code finds
    the directory, and the flags are added to the old ones. -/
def enterPt (m : Mmu64) (pd ptIndex pt : Nat) (flags : BitVec 32) : Option Mmu64 := do
  let e ← m.load (pd + 8 * ptIndex)
  if e.present then
    if (e.low : Int) < flags.toInt then m.store (pd + 8 * ptIndex) (e.or flags) else some m
  else
    let (new, m) := m.allocGetPage
    let m ← m.store (pd + 8 * ptIndex) (new.or flags)
    let m ← m.store (pd + 8 * 511) ((Entry64.ofPage (pd / 4096)).or 3)
    m.clear pt

/-- `arch_mmu_mapPage`; `none` is a page fault. -/
def archMmuMapPage (m : Mmu64) (v : Nat) (p : Entry64) (flags : BitVec 32) : Option Mmu64 := do
  let pdp := pdpAddr (pdpIndex v)
  let pd := pdAddr (pdpIndex v) (pdIndex v)
  let pt := ptAddr (pdpIndex v) (pdIndex v) (ptIndex v)
  let m ← m.enterTable (pml4Addr + 8 * pdpIndex v) pdp (tableFlags flags)
  let m ← m.enterTable (pdp + 8 * pdIndex v) pd (tableFlags flags)
  let m ← m.enterPt pd (ptIndex v) pt (tableFlags flags)
  m.store (pt + 8 * pageIndex v) (p.or flags)

/-- `arch_mmu_getPhysical`; `some 0` is NULL and `none` is a page fault. -/
def archMmuGetPhysical (m : Mmu64) (v : Nat) : Option Nat := do
  let pdp := pdpAddr (pdpIndex v)
  let pd := pdAddr (pdpIndex v) (pdIndex v)
  let pt := ptAddr (pdpIndex v) (pdIndex v) (ptIndex v)
  if !(← m.load (pml4Addr + 8 * pdpIndex v)).present then return 0
  if !(← m.load (pdp + 8 * pdIndex v)).present then return 0
  if !(← m.load (pd + 8 * ptIndex v)).present then return 0
  let e ← m.load (pt + 8 * pageIndex v)
  if e = .empty then return 0
  return (e.clean.toNat + v % 4096) % 18446744073709551616

/-- The tables of the kernel: the pages of `kernel_pml4`, `kernel_pdpt`, `kernel_pg` and `kernel_pt`, the kernel's address and
    physical page, and how many of its pages are mapped. -/
structure Boot64 where
  pml4 : Nat
  pdpt : Nat
  pg : Nat
  pt : Nat
  virtualBase : Nat
  physicalPage : Nat
  pages : Nat

def archMmuInit (b : Boot64) (m : Mmu64) : Mmu64 :=
  let mem := update m.mem b.pdpt fun _ => .empty
  let mem := update mem b.pml4 fun _ => .empty
  let mem := update mem b.pg fun _ => .empty
  let mem := update mem b.pt fun _ => .empty
  let mem := Tables.set mem b.pml4 (pdpIndex b.virtualBase) ((Entry64.ofPage b.pdpt).or 7)
  let mem := Tables.set mem b.pml4 510 ((Entry64.ofPage b.pml4).or 3)
  let mem := Tables.set mem b.pdpt (pdIndex b.virtualBase) ((Entry64.ofPage b.pg).or 7)
  let mem := Tables.set mem b.pdpt 511 ((Entry64.ofPage b.pdpt).or 3)
  let mem := Tables.set mem b.pg (ptIndex b.virtualBase) ((Entry64.ofPage b.pt).or 7)
  let mem := Tables.set mem b.pg 511 ((Entry64.ofPage b.pg).or 3)
  let mem := (List.range b.pages).foldl (fun mem i => Tables.set mem b.pt i ((Entry64.ofPage (b.physicalPage + i)).or 7)) mem
  { m with mem, cr3 := b.pml4 }

end Mmu64
end HelinKern
