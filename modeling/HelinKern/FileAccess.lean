import HelinKern.Mount
import HelinKern.Users

/-! The calls of one process on files, with the checks of permissions that they make: `sys_open`, `sys_openat`, `sys_read`,
    `sys_write`, `sys_seek`, `sys_truncate`, `sys_mmap`, `sys_fcntl`, `sys_utime`, `sys_fchmod`, `sys_chown` and `sys_fchown`
    of `src/syscall.c`.

The content of a file is kept as bytes of a store: the memory of a file system, or a disk, which has the bytes of many files and
those of its own node in `/dev`. What a hook stores there, the node that a path leads to and the node that a `creat` hook makes are
given with the call. A call that goes through a null pointer, or that takes for a socket what is none, ends the run. -/

namespace HelinKern
open Function

/-- The file system of a node, one that is mounted or one that the kernel has for itself; a socket has none. -/
inductive NodeFs
  | mounted (fs : FileSystem)
  | pipe
  | pts
  | null
  deriving DecidableEq, Repr

namespace NodeFs

/-- The `write` hook stores something; those of `rootfs` and `cpio` do not, and `iso9660` and `ext2` have none. -/
def stores : NodeFs → Bool
  | .mounted .tmpfs | .mounted .vfat | .mounted .devfs | .pipe | .pts => true
  | .mounted .rootfs | .mounted .cpio | .mounted .iso9660 | .mounted .ext2 | .null => false

end NodeFs

/-- What a node gives access to: a file, whose byte `i` is at the address `place i` of its store, or queues, from which bytes are
    read and to which they are written. -/
inductive NodeData
  | file (store : Nat) (place : Nat → Option Nat)
  | stream (input output : Nat)

structure FileNode extends VfsNode where
  ctime : Int
  mtime : Int
  atime : Int
  fs : NodeFs
  data : NodeData

def FileNode.isSocket (x : FileNode) : Bool := x.flags &&& 5 = 5

/-- What a `write` hook did: the bytes it stored by their address, or put into the queue, the places and the size of the file
    afterwards, and what it returned. -/
structure Written where
  stored : Nat → Option (BitVec 8)
  pushed : List (BitVec 8)
  place : Nat → Option Nat
  size : Int
  how : Int

/-- What a `creat` hook did: the directory, the node it made, and the bytes it stored if the directory is on a disk. -/
structure Created where
  dir : Nat
  node : FileNode
  stored : Nat → Option (BitVec 8)

/-- The nodes, the stores, the queues, what the directories have, and the descriptors of the process. -/
structure Files where
  node : Nat → FileNode
  cells : Nat → Nat → BitVec 8
  queue : Nat → List (BitVec 8)
  entries : Nat → List Nat
  table : FdTable
  fresh : Nat

namespace Files

variable (s : Files)

def setNode (m : Nat) (x : FileNode) : Files := { s with node := update s.node m x }

def store (store : Nat) (stored : Nat → Option (BitVec 8)) : Files :=
  { s with cells := update s.cells store fun a => (stored a).getD (s.cells store a) }

def asked (size : Int) : Nat := (size % 18446744073709551616).toNat

def take (x : FileNode) (size : Int) : Files :=
  match x.data with
  | .file _ _ => s
  | .stream input _ => { s with queue := update s.queue input ((s.queue input).drop (asked size)) }

def put (m : Nat) (w : Written) : Files :=
  match (s.node m).data with
  | .file store _ => (s.store store w.stored).setNode m { s.node m with size := w.size, data := .file store w.place }
  | .stream _ output => { s with queue := update s.queue output (s.queue output ++ w.pushed) }

def storeEntry (c : Created) : Files :=
  match (s.node c.dir).data with
  | .file store _ => s.store store c.stored
  | .stream _ _ => s

def link (c : Created) : Files :=
  { (s.storeEntry c).setNode s.fresh c.node with
      entries := update (update s.entries c.dir (s.entries c.dir ++ [s.fresh])) s.fresh []
      fresh := s.fresh + 1 }

def desc (fd : Int) : Option FileDescriptor :=
  if fd < 0 ∨ (FdTable.slots : Int) ≤ fd then none else s.table.fds fd.toNat

def onDesc (fd : Int) (call : FileDescriptor → Option Files) : Option Files :=
  match s.desc fd with
  | none => some s
  | some d => call d

def openFor (pid m : Nat) (flags : Int) : Files := { s with table := (s.table.openFor pid (some m) flags).2 }

def setOffset (fd : Int) (d : FileDescriptor) (offset : Int) : Files :=
  { s with table := s.table.put fd.toNat (some { d with offset := wrapInt offset }) }

section
variable (a : Account)

def hasPerm (m : Nat) (perm : Perm) : Bool := (s.node m).hasPerm perm a.gid a.uid

/-- `sys_open`: `found` is where the path leads, `created` the node that `sys_creat` makes, `again` where the path leads then. -/
def sysOpen (pid : Nat) (found : Option Nat) (flags : BitVec 32) (created : Option Created) (again : Option Nat) : Files :=
  match found with
  | some m =>
    if !s.hasPerm a m .read then s
    else if flags &&& 0x200000 ≠ 0x200000 ∧ (s.node m).flags &&& 2 = 2 then s
    else s.openFor pid m flags.toInt
  | none =>
    if flags &&& 2 = 2 ∨ flags &&& 0x200 = 0x200 ∨ flags &&& 1 = 1 then
      match created with
      | none => s
      | some c =>
        match again with
        | none => s.link c
        | some m => (s.link c).openFor pid m flags.toInt
    else s

/-- `sys_openat` with a descriptor: `found` is where the path leads from its node. -/
def sysOpenat (pid : Nat) (dirfd : Int) (found : Option Nat) : Option Files :=
  s.onDesc dirfd fun d =>
    if (s.node d.node).flags &&& 2 ≠ 2 then some s
    else match found with
      | none => some s
      | some m => some (s.openFor pid m 2)

def sysRead (fd offset size how : Int) : Option Files :=
  s.onDesc fd fun d =>
    let x := s.node d.node
    if !s.hasPerm a d.node .read then some s
    else if x.isSocket then
      if x.fs = .null then some (s.take x size) else none
    else if offset = 0 ∧ x.size < d.offset then some s
    else if x.size ≤ wrapInt (d.offset + offset) then some s
    else if x.fs = .null then some (s.setOffset fd d (d.offset - 1))
    else some ((s.take x size).setOffset fd d (d.offset + how))

def sysWrite (fd : Int) (w : Written) : Option Files :=
  s.onDesc fd fun d =>
    let x := s.node d.node
    if x.readOnly then some s
    else if !s.hasPerm a d.node .write then some s
    else if x.isSocket then
      if x.fs = .null then some (s.put d.node w) else none
    else if x.fs.stores then some ((s.put d.node w).setOffset fd d (d.offset + w.how))
    else some (s.setOffset fd d (d.offset + w.how))

def sysSeek (fd type how : Int) : Option Files :=
  s.onDesc fd fun d =>
    if type = 0 then some (s.setOffset fd d how)
    else if type = 2 then some (s.setOffset fd d ((s.node d.node).size - how))
    else if type = 1 then some (s.setOffset fd d (d.offset + how))
    else some s

/-- `sys_truncate`; `rootfs` alone has a hook, and a node without a file system is called through its null pointer. -/
def sysTruncate (fd size : Int) : Option Files :=
  s.onDesc fd fun d =>
    let x := s.node d.node
    if x.fs = .null then none
    else if x.fs = .mounted .rootfs then some (s.setNode d.node { x with size })
    else some s

/-- `sys_mmap`, of anonymous memory for a descriptor up to 0. The hook of `devfs` maps a device, any other file is read into new
    memory; a descriptor that is not open is read through its null pointer. -/
def sysMmap (fd size : Int) (flags : BitVec 32) : Option Files :=
  if size = 0 ∨ flags &&& 3 = 3 ∨ fd ≤ 0 ∨ (FdTable.slots : Int) ≤ fd then some s
  else (s.desc fd).bind fun d =>
    let x := s.node d.node
    if !s.hasPerm a d.node .write then some s
    else if x.fs = .null then none
    else if x.fs = .mounted .devfs then some s
    else some (s.take x (min size x.size))

/-- `sys_fcntl`; the command 4 sets the flags of a socket, or those of a node that is none. -/
def sysFcntl (fd cmd : Int) (arg : BitVec 64) : Option Files :=
  s.onDesc fd fun d =>
    let x := s.node d.node
    if cmd ≠ 4 then some s
    else if x.isSocket then
      if x.fs = .null then some s else none
    else some (s.setNode d.node { x with flags := (arg.setWidth 32).toNat })

def sysUtime (fd atime mtime : Int) : Option Files :=
  s.onDesc fd fun d => some (s.setNode d.node { s.node d.node with atime, mtime })

def mayChange (m : Nat) : Bool := a.uid = 0 ∨ s.hasPerm a m .write

def sysFchmod (fd : Int) (mode : BitVec 32) : Option Files :=
  s.onDesc fd fun d =>
    if s.mayChange a d.node then some (s.setNode d.node { s.node d.node with mask := mode.toNat }) else some s

def chownNode (m : Nat) (owner group : Int) : Files :=
  if s.mayChange a m then s.setNode m { s.node m with uid := owner, gid := group } else s

def sysChown (found : Option Nat) (owner group : Int) : Files :=
  match found with
  | none => s
  | some m => s.chownNode a m owner group

/-- `sys_fchown`; a descriptor that is not open is read through its null pointer. -/
def sysFchown (fd owner group : Int) : Option Files :=
  if fd < 0 ∨ (FdTable.slots : Int) ≤ fd then some s
  else (s.desc fd).map fun d => s.chownNode a d.node owner group

end

/-! ### Calls as steps -/

inductive Op
  | open (found : Option Nat) (flags : BitVec 32) (created : Option Created) (again : Option Nat)
  | openat (dirfd : Int) (found : Option Nat)
  | read (fd offset size how : Int)
  | write (fd : Int) (w : Written)
  | seek (fd type how : Int)
  | truncate (fd size : Int)
  | mmap (fd size : Int) (flags : BitVec 32)
  | fcntl (fd cmd : Int) (arg : BitVec 64)
  | utime (fd atime mtime : Int)
  | fchmod (fd : Int) (mode : BitVec 32)
  | chown (found : Option Nat) (owner group : Int)
  | fchown (fd owner group : Int)
  | other (s' : Files)

/-- A step of the process `pid`, or of the others, which leave the rights on the node `n` alone. `sys_openat` with -2 is
    `sys_open`. -/
def exec (a : Account) (pid n : Nat) : Op → Option Files
  | .open found flags created again => some (s.sysOpen a pid found flags created again)
  | .openat dirfd found => s.sysOpenat pid dirfd found
  | .read fd offset size how => s.sysRead a fd offset size how
  | .write fd w => s.sysWrite a fd w
  | .seek fd type how => s.sysSeek fd type how
  | .truncate fd size => s.sysTruncate fd size
  | .mmap fd size flags => s.sysMmap a fd size flags
  | .fcntl fd cmd arg => s.sysFcntl fd cmd arg
  | .utime fd atime mtime => s.sysUtime fd atime mtime
  | .fchmod fd mode => s.sysFchmod a fd mode
  | .chown found owner group => some (s.sysChown a found owner group)
  | .fchown fd owner group => s.sysFchown a fd owner group
  | .other s' =>
    if n < s'.fresh ∧ (s'.node n).mask = (s.node n).mask ∧ (s'.node n).uid = (s.node n).uid ∧
        (s'.node n).gid = (s.node n).gid then
      some { s' with table := s.table }
    else none

end Files

/-! ### Results of transfers -/

def NodeFs.hasWrite : NodeFs → Bool
  | .mounted .iso9660 | .mounted .ext2 | .null => false
  | _ => true

def FileNode.vfsRead (x : FileNode) (how : Int) : Int := if x.fs = .null then -1 else how

def FileNode.vfsWrite (x : FileNode) (how : Int) : Int :=
  if !x.fs.hasWrite then -1 else if x.readOnly then -2 else how

inductive Transfer
  | read (offset size how : Int)
  | write (w : Written)
  | seek (type how : Int)

namespace Files
variable (s : Files) (a : Account)

/-- What `sys_read`, `sys_write` and `sys_seek` return for a descriptor whose node is no socket. -/
def result (d : FileDescriptor) : Transfer → Int
  | .read offset _ how =>
    if !s.hasPerm a d.node .read then -eACCES
    else if offset = 0 ∧ (s.node d.node).size < d.offset then 0
    else if (s.node d.node).size ≤ wrapInt (d.offset + offset) then 0
    else (s.node d.node).vfsRead how
  | .write w =>
    if (s.node d.node).readOnly then -eROFS
    else if !s.hasPerm a d.node .write then -eACCES
    else (s.node d.node).vfsWrite w.how
  | .seek type how =>
    if type = 0 then how
    else if type = 2 then wrapInt ((s.node d.node).size - how)
    else if type = 1 then wrapInt (d.offset + how)
    else d.offset

def isInt (x : Int) : Bool := -2147483648 ≤ x ∧ x < 2147483648

/-- The calls on an open descriptor. Hooks return, and files have sizes, that are `int`. -/
def transfer (fd : Int) (c : Transfer) : Option Files :=
  (s.desc fd).bind fun d =>
    match c with
    | .read offset size how => if isInt how then s.sysRead a fd offset size how else none
    | .write w =>
      if isInt w.how ∧ isInt w.size then s.sysWrite a fd { w with how := (s.node d.node).vfsWrite w.how } else none
    | .seek type how => if isInt how then s.sysSeek fd type how else none

end Files
end HelinKern
