import HelinKern.Machine
import HelinKern.Mmap

/-! Two runs side by side in which processes do the same and only what they store differs, and the memory that processes
    obtain by `sys_sbrk` and `sys_mmap` and have not written yet. -/

namespace HelinKern
open Mmu

/-- `USER_STACK`; from here on the tables of the kernel are used by all processes. -/
def userStack : Nat := 0xF0000000

inductive MemOp
  | space (op : SpaceOp)
  | mmap (p : Nat) (addr size : Int) (flags : BitVec 32)
  deriving DecidableEq, Repr

namespace Machine

def execMem (s : Machine) : MemOp → Option Machine
  | .space op => s.exec op
  | .mmap p addr size flags => (s.userDir p).map fun pd => { s with mmu := (s.mmu.sysMmap pd addr size flags).2 }

def grows (s : Machine) : MemOp → Option Nat
  | .space (.sbrk p _) => s.userDir p
  | .mmap p _ _ _ => s.userDir p
  | _ => none

/-- The memory a call gives a process: the directory, where the memory begins and how many bytes it has. -/
def obtained (s : Machine) : MemOp → Option (Nat × Nat × Nat)
  | .space (.sbrk p nBytes) =>
    (s.userDir p).bind fun pd => (s.mmu.sbrk pd (s.brk p) nBytes).1.map fun start => (pd, start, nBytes.toNat)
  | .mmap p addr size flags =>
    (s.userDir p).bind fun pd => (s.mmu.sysMmap pd addr size flags).1.toOption.map fun start => (pd, start, size.toNat)
  | _ => none

def loses (s : Machine) (op : MemOp) (pd vaddr : Nat) : Bool :=
  match op with
  | .space (.store p a _) => decide (s.dir p = some pd) && decide (a = vaddr)
  | .space op => (s.destroys op).any fun d => decide (d.1 = pd)
  | .mmap .. => false

def freshAfter (s : Machine) (op : MemOp) (t : Machine) (fresh : Nat → Nat → Bool) (pd vaddr : Nat) : Bool :=
  decide (pd ∈ t.live) &&
    ((s.obtained op).any (fun (qd, start, size) => decide (qd = pd ∧ start ≤ vaddr ∧ vaddr < start + size)) ||
      fresh pd vaddr && !s.loses op pd vaddr)

end Machine

/-! ### The frames a call will take -/

/-- What the `n`-th of the next calls of `alloc_getPage` returns, counted from 0. -/
def Frames.upcoming (s : Frames) (n : Nat) : Option Nat := ((fun s => s.allocGetPage.2)^[n] s).allocGetPage.1

/-- How many page tables are missing for the first `k` pages from `first` on. -/
def Mmu.missingTables (m : Mmu) (pd first k : Nat) : Nat :=
  (((Finset.range k).image fun i => pageDirectoryIndex (first + 4096 * i)).filter fun i => !(m.entry pd i).has pgPresent).card

/-- `pages` pages are to be mapped from `first` on, as long as they begin at `limit` at the latest and the frames lie below
    `top`. -/
structure Request where
  pd : Nat
  first : Nat
  pages : Nat
  limit : Nat
  top : Nat
  deriving DecidableEq, Repr

namespace Request

variable (r : Request) (m : Mmu)

/-- The frame of the page `k` is taken after those of the pages and of the new tables before it. -/
def frame (k : Nat) : Option Nat := m.frames.upcoming (k + m.missingTables r.pd r.first k)

def given (k : Nat) : Option Nat :=
  if k < r.pages ∧ r.first + 4096 * k ≤ r.limit ∧ ∀ i ≤ k, (r.frame m i).all fun a => a < r.top then r.frame m k else none

def frameAt (vaddr : Nat) : Option Nat :=
  if r.first / 4096 ≤ vaddr / 4096 then r.given m (vaddr / 4096 - r.first / 4096) else none

end Request

/-- The pages `sbrk` maps: it stops at the end of memory and at a frame from 2 GiB on. -/
def Mmu.sbrkRequest (m : Mmu) (pd : Nat) (b : Brk) (nBytes : Int) : Option Request :=
  let remaining : Int := b.brkNextUnallocatedPageBegin - b.brkEnd
  let pages := (nBytes - remaining - 1).toNat / 4096 + 1
  if nBytes ≤ 0 ∨ nBytes ≤ remaining ∨ m.frames.totalPages + m.frames.usedPhysMem / 4096 < pages then none
  else some ⟨pd, b.brkNextUnallocatedPageBegin, pages, memoryEnd - 8192, 2147483648⟩

def Mmu.mmapRequest (m : Mmu) (pd : Nat) (addr size : Int) (flags : BitVec 32) : Option Request :=
  (m.mmapWhere pd addr size flags).toOption.map fun start => ⟨pd, start, (mmapPages size).toNat, wordSize, wordSize⟩

namespace Machine

def request (s : Machine) (pd : Nat) : MemOp → Option Request
  | .space (.sbrk p nBytes) => s.mmu.sbrkRequest pd (s.brk p) nBytes
  | .mmap _ addr size flags => s.mmu.mmapRequest pd addr size flags
  | _ => none

/-- The byte of memory behind an address of the process once the call is over. -/
def behind (s : Machine) (op : MemOp) (pd vaddr : Nat) : Option Nat :=
  (((s.request pd op).bind fun r => r.frameAt s.mmu vaddr).map (· + vaddr % 4096)).or
    ((s.mmu.translate pd vaddr).map Access.phys)

end Machine

/-- Both runs take the same step, or the same process stores at the same address, but maybe not the same value. -/
inductive PairOp
  | both (op : MemOp)
  | stores (p vaddr : Nat) (v v' : BitVec 8)
  deriving DecidableEq, Repr

namespace PairOp

def left : PairOp → MemOp
  | .both op => op
  | .stores p vaddr v _ => .space (.store p vaddr v)

def right : PairOp → MemOp
  | .both op => op
  | .stores p vaddr _ v' => .space (.store p vaddr v')

end PairOp

structure Pair where
  left : Machine
  right : Machine
  fresh : Nat → Nat → Bool

namespace Pair

def start (s : Machine) : Pair := ⟨s, s, fun _ _ => false⟩

def exec (σ : Pair) (op : PairOp) : Option Pair :=
  (σ.left.execMem op.left).bind fun left => (σ.right.execMem op.right).map fun right =>
    ⟨left, right, σ.left.freshAfter op.left left σ.fresh⟩

/-- What a process reads from memory it obtained and has not written is the same in both runs. -/
def Same (σ : Pair) : Prop :=
  ∀ pd vaddr, σ.fresh pd vaddr = true → σ.right.mmu.userRead pd vaddr = σ.left.mmu.userRead pd vaddr

end Pair

/-- `sys_mmap` refuses its arguments, or its search begins and ends among the tables of the process alone. -/
def Mmu.MmapInside (m : Mmu) (pd : Nat) (addr size : Int) (flags : BitVec 32) : Prop :=
  size = 0 ∨ (flags &&& 1 = 1 ∧ flags &&& 2 = 2) ∨ (flags &&& 8 = 8 ∧ addr = 0) ∨
    (addr ≠ 0 → userOffset ≤ toWord addr) ∧
      ∃ start, m.archMmuQuery pd (if addr ≠ 0 then toWord addr else userMmapStart) (toWord size) = some start ∧
        userOffset ≤ start ∧ start < userStack ∧ start + 4096 * (mmapPages size).toNat ≤ userStack

namespace Pair

/-- A step that takes place as intended: no frame is missing, a process whose pages are all freed shares none, and
    memory is given out between `USER_OFFSET` and `USER_STACK`. -/
structure Regular (σ : Pair) (op : PairOp) (τ : Pair) : Prop where
  missing : .missing ∉ τ.left.mmu.log
  good : ∀ o, op.left = .space o → σ.left.Good o
  inside : ∀ pd start size, σ.left.obtained op.left = some (pd, start, size) → userOffset ≤ start ∧ start + size ≤ userStack
  search : ∀ p pd addr size flags, op.left = .mmap p addr size flags → σ.left.userDir p = some pd →
    σ.left.mmu.MmapInside pd addr size flags

/-- Memory that a process has obtained, or obtains by this call, and has not written. -/
def Unwritten (σ : Pair) (op : MemOp) (pd vaddr : Nat) : Prop :=
  (∃ start size, σ.left.obtained op = some (pd, start, size) ∧ start ≤ vaddr ∧ vaddr < start + size) ∨ σ.fresh pd vaddr = true

/-- The frames that a call which gives out memory will take hold the same bytes in both runs before the call, as far as they
    come behind such memory; and so do the pages that are there already. -/
def Supplied (σ : Pair) (op : PairOp) : Prop :=
  ∀ pd, σ.left.grows op.left = some pd → ∀ vaddr, σ.Unwritten op.left pd vaddr → ∀ a, σ.left.behind op.left pd vaddr = some a →
    σ.right.mmu.mem a = σ.left.mmu.mem a

end Pair
end HelinKern
