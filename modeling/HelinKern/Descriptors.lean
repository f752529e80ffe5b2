import HelinKern.Lib.Lts

/-! The descriptor tables of the processes: `thread_openFor` of `src/thread.c`, and what `sys_close`, `sys_dup`, `sys_fork`
    and `sys_clone` of `src/syscall.c` do to them. -/

namespace HelinKern

def eBADF : Int := 9

def eNFILE : Int := 23

structure FileDescriptor where
  pid : Nat
  node : Nat
  offset : Int
  flags : Int
  deriving DecidableEq, Repr

/-- The fields `fds` and `next_fd` of a process. The array has 200 slots; the numbers from 200 on stand for the memory
    behind it. -/
structure FdTable where
  fds : Nat → Option FileDescriptor
  nextFd : Nat

namespace FdTable

def slots : Nat := 200

def openLimit : Nat := 1024

def empty : FdTable := ⟨fun _ => none, 0⟩

def put (t : FdTable) (i : Nat) (fd : Option FileDescriptor) : FdTable := { t with fds := Function.update t.fds i fd }

/-- `thread_openFor`. What `vfs_close` does to a node that finds no place is not part of the table. -/
def openFor (t : FdTable) (pid : Nat) (node : Option Nat) (flags : Int) : Int × FdTable :=
  match node with
  | none => (-eBADF, t)
  | some node =>
    if openLimit < t.nextFd + 1 then (-eNFILE, t)
    else (t.nextFd, { t.put t.nextFd (some ⟨pid, node, 0, flags⟩) with nextFd := t.nextFd + 1 })

def close (t : FdTable) (fd : Int) (accessable : Bool) : Int × FdTable :=
  if fd < 0 ∨ (slots : Int) ≤ fd then (-eBADF, t)
  else
    match t.fds fd.toNat with
    | none => (-eBADF, t)
    | some _ => if accessable then (0, t.put fd.toNat none) else (-eBADF, t)

def findFree (t : FdTable) : Option Nat := (List.range t.nextFd).find? fun i => (t.fds i).isNone

/-- `sys_dup`; `2` is the form `dup2`. The form `1` goes on without a descriptor, and then fills the slot with a block
    that was never written: `junk`. -/
def dup (t : FdTable) (oldfd newfd : Nat) (dupfd : Int) (junk : FileDescriptor) : Int × FdTable :=
  let fd := t.fds oldfd
  if fd = none ∧ dupfd ≠ 1 then (-eBADF, t)
  else if slots ≤ newfd then (-24, t)
  else if dupfd = 2 then (newfd, t.put newfd fd)
  else
    match t.findFree with
    | some i => (i, t.put i (some (fd.getD junk)))
    | none => (t.nextFd, { t.put t.nextFd (some (fd.getD junk)) with nextFd := t.nextFd + 1 })

def fork (t : FdTable) (child : Nat) : FdTable where
  fds i := if i < slots then (t.fds i).map fun fd => { fd with pid := child } else none
  nextFd := t.nextFd

def cloneFd (child : Nat) (ts : FdTable × FdTable) (i : Nat) : FdTable × FdTable :=
  match ts.1.fds i with
  | some desc => (ts.1, (ts.2.openFor child (if desc.node = 0 then none else some desc.node) desc.flags).2)
  | none => (ts.1.put i none, ts.2)

def clone (t : FdTable) (child : Nat) : FdTable × FdTable := (List.range t.nextFd).foldl (cloneFd child) (t, empty)

end FdTable

abbrev FdTables := Nat → Option FdTable

namespace FdTables

inductive Op
  | openFor (pid : Nat) (node : Option Nat) (flags : Int)
  | close (pid : Nat) (fd : Int) (accessable : Bool)
  | dup (pid : Nat) (oldfd newfd : Fin FdTable.slots) (dupfd : Int) (junk : FileDescriptor)
  | fork (parent child : Nat)

def start (pid : Nat) : FdTables := Function.update (fun _ => none) pid (some FdTable.empty)

def set (s : FdTables) (pid : Nat) (t : FdTable) : FdTables := Function.update s pid (some t)

/-- A process that does not exist calls nothing, and a child is a new process. -/
def exec (s : FdTables) : Op → Option FdTables
  | .openFor pid node flags => (s pid).map fun t => s.set pid (t.openFor pid node flags).2
  | .close pid fd accessable => (s pid).map fun t => s.set pid (t.close fd accessable).2
  | .dup pid oldfd newfd dupfd junk => (s pid).map fun t => s.set pid (t.dup oldfd newfd dupfd junk).2
  | .fork parent child => if s child = none then (s parent).map fun t => s.set child (t.fork child) else none

def clone (s : FdTables) (parent child : Nat) : Option FdTables :=
  if s child = none then (s parent).map fun t => (s.set parent (t.clone child).1).set child (t.clone child).2 else none

end FdTables
end HelinKern
