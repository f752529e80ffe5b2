import HelinKern.Mmu
import HelinKern.Syscall

/-! Processes together with their address spaces: the calls that make, copy, extend and destroy an address space. -/

namespace HelinKern
open Mmu Function

structure Machine where
  kernel : Kernel
  mmu : Mmu
  brk : Nat → Brk

/-- `start` is `elf_load_file` without a caller, which makes the first process; `switch` stands for the scheduler. -/
inductive SpaceOp
  | start (size : Int)
  | switch (p : Nat)
  | fork
  | store (p vaddr : Nat) (v : BitVec 8)
  | sbrk (p : Nat) (nBytes : Int)
  | exec (p : Nat) (size : Int)
  | kill (p : Nat) (code : Int) (reschedule : Bool)
  deriving DecidableEq, Repr

namespace Machine

def dir (s : Machine) (p : Nat) : Option Nat := (s.kernel.proc p).aspace.map (· / 4096)

def live (s : Machine) : List Nat := (idle :: s.kernel.taskList).filterMap s.dir

def userDir (s : Machine) (p : Nat) : Option Nat :=
  if p ∈ s.kernel.taskList then (s.dir p).filter fun pd => pd ≠ kernelPg else none

def spawn (s : Machine) (orig : Nat) (f : Process → Process) : Option (Nat × Nat × Machine) :=
  (s.kernel.threadCreate true).toOption.bind fun (pid, k) =>
    s.mmu.archMmuNewAspace.map fun (space, m) =>
      (pid, space, { s with
        kernel := k.modify pid fun p => f { p with aspace := some (4096 * space) }
        mmu := m.archMmuDuplicate orig space })

def elfStart (s : Machine) (size : Int) : Option Machine :=
  (s.spawn kernelPg fun p => { p with state := .running, substate := .exec }).map fun (pid, space, s) =>
    let (m, b) := s.mmu.allocInitProcess space size
    { s with mmu := m, brk := update s.brk pid b }

def sysFork (s : Machine) : Option Machine :=
  let parent := s.kernel.caller
  (s.userDir parent).bind fun orig =>
    (s.spawn orig fun p => { p with state := .running, substate := .fork, parent := some parent }).map
      fun (pid, _, s) => { s with brk := update s.brk pid (s.brk parent) }

/-- The call of `arch_mmu_destroyAspace` that an operation makes: `sys_exec` keeps the pages that cannot be written,
    and the end of a process may free these too. -/
def destroys (s : Machine) : SpaceOp → Option (Nat × Bool)
  | .exec p _ => (s.userDir p).map fun pd => (pd, false)
  | .kill p _ _ =>
    if (s.kernel.proc p).type = .thread then none else (s.dir p).map fun pd => (pd, s.kernel.destroysAll p)
  | _ => none

def destroy (s : Machine) (op : SpaceOp) : Mmu :=
  match s.destroys op with
  | none => s.mmu
  | some (pd, all) => s.mmu.archMmuDestroyAspace pd all

/-- `sys_exec` of a process, from where it destroys the address space. `thread_recreateStack` leaves no running
    process, and the bytes of the program are stores of the process. -/
def sysExec (s : Machine) (p pd : Nat) (m : Mmu) (size : Int) : Machine :=
  let (m, b) := m.allocInitProcess pd size
  { kernel := { s.kernel.modify p fun q => { q with state := .running, substate := .exec } with runningTask := none }
    mmu := m
    brk := update s.brk p b }

def exec (s : Machine) (op : SpaceOp) : Option Machine :=
  match op with
  | .start size => s.elfStart size
  | .switch p =>
    if p ∈ idle :: s.kernel.taskList then some { s with kernel := { s.kernel with runningTask := some p } } else none
  | .fork => s.sysFork
  | .store p vaddr v =>
    if p ∈ s.kernel.taskList ∧ userOffset ≤ vaddr ∧ vaddr < memoryEnd then
      (s.dir p).bind fun pd =>
        (s.mmu.userStore pd (s.kernel.proc p).parent vaddr v).map fun mmu => { s with mmu }
    else none
  | .sbrk p nBytes =>
    (s.userDir p).map fun pd =>
      let (_, m, b) := s.mmu.sbrk pd (s.brk p) nBytes
      { s with mmu := m, brk := update s.brk p b }
  | .exec p size => (s.userDir p).map fun pd => s.sysExec p pd (s.destroy op) size
  | .kill p code reschedule =>
    if p ∈ s.kernel.taskList then
      (s.kernel.threadKillThread p code reschedule).toOption.map fun kernel => { s with kernel, mmu := s.destroy op }
    else none

/-- Every call of `alloc_getPage` whose result is not checked got a frame. -/
def Step (s : Machine) (op : SpaceOp) (t : Machine) : Prop := s.exec op = some t ∧ .missing ∉ t.mmu.log

end Machine

/-- No other process maps a page that `pd` owns but may not write: nobody waits for a copy of it. -/
def Mmu.Unshared (m : Mmu) (live : List Nat) (pd : Nat) : Prop :=
  ∀ i j e, 256 ≤ i → i < 576 → j < 1024 → m.pte pd i j = some e → e.has pgOwned = true → e.has pgWrite = false →
    ∀ q ∈ live, q ≠ pd → ∀ e', m.pte q i j = some e' → e'.frame ≠ e.frame

/-- A process whose owned pages are all freed shares none of them. -/
def Machine.Good (s : Machine) (op : SpaceOp) : Prop := ∀ pd, s.destroys op = some (pd, true) → s.mmu.Unshared s.live pd

end HelinKern
