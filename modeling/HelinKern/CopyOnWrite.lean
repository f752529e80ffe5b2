import HelinKern.Mmu

/-! What copy-on-write is for: every process has a memory of its own, which a fork copies, and pages without
    `PG_OWNED` are one memory for all. Next to it the processes that `arch_mmu_duplicate` and `handle_COW` serve. -/

namespace HelinKern
open Mmu Function

inductive Backing
  | none
  | owned
  | shared (frame : Nat)
  deriving DecidableEq, Repr

def Backing.of : Option (Nat × Bool) → Backing
  | .none => .none
  | some (_, true) => .owned
  | some (f, false) => .shared f

/-- The memories of the processes. `page pd i j` is the page at entry `j` of the table for entry `i` of the
    directory `pd`, `own pd` the bytes of the pages `pd` owns, `shared` the bytes of all other pages by their
    physical address. -/
structure Memories where
  page : Nat → Nat → Nat → Backing
  own : Nat → Nat → BitVec 8
  shared : Nat → BitVec 8

namespace Memories

def fork (s : Memories) (parent child : Nat) : Memories :=
  { s with page := update s.page child (s.page parent), own := update s.own child (s.own parent) }

def store (s : Memories) (pd vaddr : Nat) (v : BitVec 8) : Memories :=
  match s.page pd (pageDirectoryIndex vaddr) (pageTableIndex vaddr) with
  | .none => s
  | .owned => { s with own := update s.own pd (update (s.own pd) vaddr v) }
  | .shared f => { s with shared := update s.shared (4096 * f + vaddr % 4096) v }

def read (s : Memories) (pd vaddr : Nat) : Option (BitVec 8) :=
  match s.page pd (pageDirectoryIndex vaddr) (pageTableIndex vaddr) with
  | .none => none
  | .owned => some (s.own pd vaddr)
  | .shared f => some (s.shared (4096 * f + vaddr % 4096))

def of (m : Mmu) : Memories where
  page pd i j := if 256 ≤ i ∧ i < 1023 then .of (m.backing pd i j) else .none
  own pd vaddr :=
    match m.backing pd (pageDirectoryIndex vaddr) (pageTableIndex vaddr) with
    | none => 0
    | some (f, _) => m.mem (4096 * f + vaddr % 4096)
  shared := m.mem

end Memories

structure Cow where
  mmu : Mmu
  live : List Nat
  memories : Memories

inductive CowOp
  | fork (pd : Nat)
  | store (pd parent vaddr : Nat) (v : BitVec 8)

namespace Cow

def exec (s : Cow) : CowOp → Option Cow
  | .fork pd =>
    if pd ∈ s.live then
      s.mmu.archMmuNewAspace.map fun (child, m) =>
        ⟨m.archMmuDuplicate pd child, child :: s.live, s.memories.fork pd child⟩
    else none
  | .store pd parent vaddr v =>
    if pd ∈ s.live then
      (s.mmu.userStore pd (some parent) vaddr v).map fun m => ⟨m, s.live, s.memories.store pd vaddr v⟩
    else none

/-- No call of `alloc_getPage` found the memory exhausted. -/
def Step (s : Cow) (op : CowOp) (t : Cow) : Prop := s.exec op = some t ∧ .missing ∉ t.mmu.log

/-- The store goes to a page that user processes may access, below the recursive entry and above the pages of
    the kernel. -/
def UserStore (s : Cow) : CowOp → Prop
  | .fork _ => True
  | .store pd _ vaddr _ => userOffset ≤ vaddr ∧ vaddr < memoryEnd ∧ ∀ a, s.mmu.translate pd vaddr = some a → a.user = true

end Cow

/-- How a call of `handle_COW` ends: `false`; `true` before any look at the page; `true` with the page mapped anew; or a
    page fault inside, at a page table that is not present. -/
inductive CowOutcome
  | refused
  | ignored
  | remapped (m : Mmu)
  | faults

def CowOutcome.after (m : Mmu) : CowOutcome → Mmu
  | .remapped m' => m'
  | .refused | .ignored | .faults => m

namespace Mmu

/-- `handle_COW`; `faulter` is the process with its parent, and `none` is NULL for both. -/
def handleCOWFault (m : Mmu) (pd : Nat) (faulter : Option (Option Nat)) (addr : Nat) (present : Bool) : CowOutcome :=
  if !present then .refused
  else
    match faulter with
    | none => .ignored
    | some none => .refused
    | some (some parent) =>
      let pde := m.entry pd (pageDirectoryIndex addr)
      if pde ≠ .empty ∧ !pde.has pgPresent then .faults
      else
        match m.handleCOW pd (some parent) addr with
        | none => .refused
        | some m => .remapped m

/-- The page that an address lies in waits for its copy: present, for user processes, owned and not writable. -/
def CowPage (m : Mmu) (pd vaddr : Nat) : Bool :=
  !(m.entry pd (pageDirectoryIndex vaddr)).has pg4MB &&
    (m.pte pd (pageDirectoryIndex vaddr) (pageTableIndex vaddr)).any fun e =>
      e.has pgUser && e.has pgOwned && !e.has pgWrite

end Mmu

def Mmu.peek (m : Mmu) (pd vaddr : Nat) : Option (BitVec 8) := (m.translate pd vaddr).map fun a => m.mem a.phys

end HelinKern
