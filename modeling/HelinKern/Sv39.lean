import HelinKern.Lib.Tables
import Mathlib.Data.BitVec

/-! Paging on RISC-V: `src/arch/riscv/mmu.c`. The tables are read and written through four pages at the end of the kernel's
    page table; two of them are turned to the tables of an address while the address is mapped. The bits A and D, which a
    processor may set in the entries that it uses, are left out. -/

namespace HelinKern

def pteV : BitVec 64 := 0x1
def pteR : BitVec 64 := 0x2
def pteW : BitVec 64 := 0x4
def pteX : BitVec 64 := 0x8
def pteU : BitVec 64 := 0x10

def createPte (phys : BitVec 64) (read write exec user : Bool) : BitVec 64 :=
  let b := phys >>> 12
  let a := b <<< 10
  let a := a ||| pteV
  let a := a ||| if read then pteR else 0
  let a := a ||| if write then pteW else 0
  let a := a ||| if exec then pteX else 0
  a ||| if user then pteU else 0

def createPteWithFlags (phys : BitVec 64) (flags : BitVec 32) : BitVec 64 :=
  let b := phys >>> 12
  let a := b <<< 10
  a ||| flags.signExtend 64

def sv39Convert (val : BitVec 64) : BitVec 64 := (val >>> 10) <<< 12

/-- Physical memory in pages of 512 words, the page that `satp` names, and the frames that `alloc_getPage` hands out next. -/
structure Mmu39 where
  mem : Nat → Nat → BitVec 64
  root : Nat
  frames : List Nat

namespace Mmu39

def flags (e : BitVec 64) : BitVec 10 := e.setWidth 10

def ppn (e : BitVec 64) : Nat := e.toNat / 1024 % 17592186044416

def valid (e : BitVec 64) : Bool := e.getLsbD 0

def reserved (e : BitVec 64) : Bool := 18014398509481984 ≤ e.toNat || !e.getLsbD 1 && e.getLsbD 2

def isLeaf (e : BitVec 64) : Bool := e.getLsbD 1 || e.getLsbD 3

/-- The bits U, A and D, which are reserved in an entry that leads to a table. -/
def pageBits (e : BitVec 64) : Bool := e.getLsbD 4 || e.getLsbD 6 || e.getLsbD 7

structure Leaf where
  page : Nat
  flags : BitVec 10
  deriving DecidableEq, Repr

def index (level v : Nat) : Nat := v / 4096 / 512 ^ level % 512

/-- A step of the walk; `next` goes on in the table of the next level, and `none` is a page fault. -/
def walkStep (mem : Nat → Nat → BitVec 64) (v level page : Nat) (next : Nat → Option Leaf) : Option Leaf :=
  let e := mem page (index level v)
  if !valid e || reserved e then none
  else if isLeaf e then
    if ppn e % 512 ^ level = 0 then some ⟨ppn e + v / 4096 % 512 ^ level, flags e⟩ else none
  else if pageBits e then none
  else next (ppn e)

def walkFrom (mem : Nat → Nat → BitVec 64) (v : Nat) : (level page : Nat) → Option Leaf
  | 0, page => walkStep mem v 0 page fun _ => none
  | level + 1, page => walkStep mem v (level + 1) page (walkFrom mem v level)

/-- An address with the bits 39 to 63 as bit 38. -/
def Canonical (v : Nat) : Prop := v < 274877906944 ∨ 18446743798831644672 ≤ v ∧ v < 18446744073709551616

instance : DecidablePred Canonical := fun _ => inferInstanceAs (Decidable (_ ∨ _))

def translate (m : Mmu39) (v : Nat) : Option Leaf := if Canonical v then walkFrom m.mem v 2 m.root else none

/-- The kernel reads and writes no pages of users. -/
def load (m : Mmu39) (v : Nat) : Option (BitVec 64) :=
  (m.translate v).bind fun l => if l.flags.getLsbD 1 && !l.flags.getLsbD 4 then some (m.mem l.page (v % 4096 / 8)) else none

def store (m : Mmu39) (v : Nat) (e : BitVec 64) : Option Mmu39 :=
  (m.translate v).bind fun l =>
    if l.flags.getLsbD 2 && !l.flags.getLsbD 4 then some { m with mem := Tables.set m.mem l.page (v % 4096 / 8) e } else none

def clear (m : Mmu39) (v : Nat) : Option Mmu39 := (List.range 512).foldlM (fun m i => m.store (v + 8 * i) 0) m

def addr (page : Nat) : BitVec 64 := BitVec.ofNat 64 (4096 * page)

def allocGetPage (m : Mmu39) : BitVec 64 × Mmu39 :=
  match m.frames with
  | [] => (BitVec.allOnes 64, m)
  | frame :: frames => (addr frame, { m with frames })

def vpn2Indx (vaddr : Nat) : Nat := vaddr / 1073741824 % 512
def vpn1Indx (vaddr : Nat) : Nat := vaddr / 2097152 % 512
def vpn0Indx (vaddr : Nat) : Nat := vaddr / 4096 % 512

def tmpVpn0 : Nat := 0x803fc000
def curVpn2 : Nat := 0x803fd000
def curVpn1 : Nat := 0x803fe000
def curVpn0 : Nat := 0x803ff000

/-- What is done with an entry of `cur_vpn2` and of `cur_vpn1`: the table it leads to is made if it is missing, and the entry
    `slot` of `tmp_vpn0` is turned to it, so that it is found at `next`. -/
def enterTable (m : Mmu39) (table indx slot next : Nat) : Option Mmu39 := do
  let m ←
    if (← m.load (table + 8 * indx)) &&& pteV = 0 then do
      let (new, m) := m.allocGetPage
      let m ← m.store (table + 8 * indx) (createPte new false false false false)
      let m ← m.store (tmpVpn0 + 8 * slot) (createPte new true true false false)
      m.clear next
    else some m
  let e ← m.load (table + 8 * indx)
  m.store (tmpVpn0 + 8 * slot) (createPte (sv39Convert e) true true false false)

def archMmuMapPage (m : Mmu39) (vaddr : Nat) (paddr : BitVec 64) (flags : BitVec 32) : Option Mmu39 := do
  let m ← m.enterTable curVpn2 (vpn2Indx vaddr) 510 curVpn1
  let m ← m.enterTable curVpn1 (vpn1Indx vaddr) 511 curVpn0
  m.store (curVpn0 + 8 * vpn0Indx vaddr) (createPteWithFlags paddr flags)

/-- The pages of the arrays `vpn0`, `vpn1` and `vpn2`, which lie at their physical addresses, and the bounds of the kernel. -/
structure Boot39 where
  vpn0 : Nat
  vpn1 : Nat
  vpn2 : Nat
  kernelStart : Nat
  kernelEnd : Nat

def bootTables (k : Boot39) (mem : Nat → Nat → BitVec 64) : Nat → Nat → BitVec 64 :=
  let mem := Tables.set mem k.vpn2 (vpn2Indx k.kernelStart) (createPte (addr k.vpn1) false false false false)
  let mem := Tables.set mem k.vpn1 (vpn1Indx k.kernelStart) (createPte (addr k.vpn0) false false false false)
  let mem := (List.range ((k.kernelEnd - k.kernelStart + 4095) / 4096)).foldl
    (fun mem i =>
      let vaddr := k.kernelStart + 4096 * i
      Tables.set mem k.vpn0 (vpn0Indx vaddr) (createPte (BitVec.ofNat 64 vaddr) true true true false)) mem
  let mem := Tables.set mem k.vpn0 508 (createPte (addr k.vpn0) true true false false)
  let mem := Tables.set mem k.vpn0 509 (createPte (addr k.vpn2) true true false false)
  let mem := Tables.set mem k.vpn0 510 (createPte (addr k.vpn1) true true false false)
  Tables.set mem k.vpn0 511 (createPte (addr k.vpn0) true true false false)

def archMmuInit (k : Boot39) (m : Mmu39) : Option Mmu39 :=
  { m with mem := bootTables k m.mem, root := k.vpn2 }.archMmuMapPage 0x10000000 0x10000000 7

end Mmu39
end HelinKern
