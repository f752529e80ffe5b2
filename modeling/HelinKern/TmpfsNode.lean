import HelinKern.Descriptors
import HelinKern.Tmpfs

/-! A file of the temporary file system while descriptors refer to it: `tmpfs_rm` and `tmpfs_close` of `src/fs/tmpfs.c`,
    called by `thread_openFor` of `src/thread.c` and by `sys_close` and `sys_unlink` of `src/syscall.c`. The directory of the
    file is not removed, so that `tmpfs_rm` always finds its queue, and `fd_count` does not overflow. -/

namespace HelinKern

/-- What `tmpfs_creat` and `tmpfs_getOrCreateBlock` allocate for a file: the node, its name, the `TmpFSFile` and, for each
    block, the `BlockInfo` with its page. -/
inductive TmpPart
  | node
  | name
  | file
  | block (id : Nat)
  deriving DecidableEq, Repr

/-- The file at the address `self`, and the tables of the processes. `content` is the size and the blocks that were written,
    `linked` says that the directory still has the node, and `freed` are the calls of `kfree` and `alloc_freePage`, the last
    one first. -/
structure TmpNode where
  self : Nat
  tables : FdTables
  content : TmpFile
  fdCount : Int
  deleted : Bool
  linked : Bool
  freed : List TmpPart

namespace TmpNode

def creat (self : Nat) (pids : List Nat) : TmpNode where
  self := self
  tables p := if p ∈ pids then some FdTable.empty else none
  content := .creat
  fdCount := 0
  deleted := false
  linked := true
  freed := []

def parts (s : TmpNode) : List TmpPart := [.node, .name, .file] ++ s.content.dataQueue.map fun b => .block b.id

def free (s : TmpNode) (part : TmpPart) : TmpNode := { s with freed := part :: s.freed }

def freeBlocks (s : TmpNode) : List BlockInfo → TmpNode
  | [] => s
  | b :: blocks => (s.free (.block b.id)).freeBlocks blocks

def tmpfsRm (s : TmpNode) : TmpNode :=
  let s := { s with linked := false }.freeBlocks s.content.dataQueue
  if s.fdCount ≤ 0 then ((s.free .file).free .name).free .file else s

def tmpfsClose (s : TmpNode) : TmpNode :=
  let s := { s with fdCount := s.fdCount - 1 }
  if s.deleted ∧ s.fdCount ≤ 0 then ((s.free .file).free .name).free .node else s

def openFor (s : TmpNode) (pid : Nat) (t : FdTable) (flags : Int) : TmpNode :=
  let s' := { s with tables := s.tables.set pid (t.openFor pid (some s.self) flags).2 }
  if FdTable.openLimit ≤ t.nextFd then s'.tmpfsClose else s'

/-- The memory the file is read from; `none` if a part of it was freed. -/
def memory (s : TmpNode) : Option TmpFile := if ∀ part ∈ s.parts, part ∉ s.freed then some s.content else none

inductive Op
  | open (pid : Nat) (flags : Int)
  | read (pid fd offset size : Nat) (buff : Int → BitVec 8)
  | write (pid fd offset size : Nat) (ptr : Int → BitVec 8)
  | rm
  | close (pid fd : Nat)

def slot (s : TmpNode) (pid fd : Nat) : Option FileDescriptor :=
  if fd < FdTable.slots then (s.tables pid).bind fun t => t.fds fd else none

/-- A path leads to the file only while it is linked; reads and writes go through a descriptor. -/
def exec (s : TmpNode) : Op → Option TmpNode
  | .open pid flags => if s.linked then (s.tables pid).map fun t => s.openFor pid t flags else none
  | .read pid fd _ _ _ => (s.slot pid fd).bind fun d => if d.node = s.self then some s else none
  | .write pid fd offset size ptr => (s.slot pid fd).bind fun d =>
    if d.node = s.self then s.memory.bind fun f => (f.write offset size ptr).map fun r => { s with content := r.2 } else none
  | .rm => if s.linked then some s.tmpfsRm else none
  | .close pid fd => (s.slot pid fd).bind fun d =>
    if d.node = s.self then (s.tables pid).map fun t => { s.tmpfsClose with tables := s.tables.set pid (t.put fd none) } else none

end TmpNode
end HelinKern
