import HelinKern.Descriptors
import HelinKern.Fifo

/-! A pipe between its two descriptors: `sys_read` and `sys_write` of `src/syscall.c`, the dispatch of `src/vfs.c` and the
    driver `src/ipc/pipe.c`. -/

namespace HelinKern

def eACCES : Int := 13

def eROFS : Int := 30

structure VfsNode where
  mask : Nat
  gid : Int
  uid : Int
  flags : Nat
  inode : Nat
  size : Int
  mountFlags : Nat
  deriving DecidableEq, Repr

inductive Perm
  | read
  | write
  | exec
  deriving DecidableEq, Repr

/-- The bits of a mask for the owner, the group and everybody. -/
def Perm.bits : Perm → Nat × Nat × Nat
  | .read => (0o400, 0o040, 0o004)
  | .write => (0o200, 0o020, 0o002)
  | .exec => (0o100, 0o010, 0o001)

namespace VfsNode

def hasPerm (node : VfsNode) (perm : Perm) (gr us : Int) : Bool :=
  (us = node.uid ∧ node.mask &&& perm.bits.1 ≠ 0) ∨ (gr = node.gid ∧ node.mask &&& perm.bits.2.1 ≠ 0) ∨
    node.mask &&& perm.bits.2.2 ≠ 0

def readOnly (node : VfsNode) : Bool := node.mountFlags &&& 0x14 = 0x14

def nonBlock (node : VfsNode) : Bool := node.flags &&& 3 = 3

end VfsNode

/-- The calling process with the pipe it made: its table, its ids, the two nodes by their address, `data->queue` and the
    two numbers `pipe_create` wrote to `fds`. -/
structure Pipe where
  table : FdTable
  gid : Int
  uid : Int
  node : Nat → VfsNode
  queue : QueueSize
  readFd : Int
  writeFd : Int

namespace Pipe

def mask : Nat := 0o400 ||| 0o040 ||| 0o004 ||| 0o200 ||| 0o020 ||| 0o002

/-- `pipe_create`; `reader` and `writer` are the addresses of the nodes, `buffer` what `kmalloc` found where the queue
    will be. -/
def create (t : FdTable) (pid : Nat) (gid uid : Int) (reader writer : Nat) (buffer : Nat → BitVec 8) : Pipe :=
  let fd0 := t.openFor pid (some reader) 2
  let fd1 := fd0.2.openFor pid (some writer) 2
  { table := fd1.2
    gid := gid
    uid := uid
    node := fun a => { mask := mask, gid := 0, uid := 0, flags := 0, inode := if a = writer then 1 else 0, size := 0,
                       mountFlags := 0 }
    queue := QueueSize.create buffer (64 * 1024)
    readFd := fd0.1
    writeFd := fd1.1 }

def vfsWrite (p : Pipe) (size : Nat) (buff : Nat → BitVec 8) : Int × Pipe :=
  let how := min p.queue.getFree size
  let (r, queue) := p.queue.enqueue (some buff) how
  (wrapInt r, { p with queue })

/-- `pipe_vfs_read`; `none` if it waits for the queue to have a byte. -/
def vfsRead (p : Pipe) (node : VfsNode) (size : Nat) (buff : Nat → BitVec 8) : Option (Int × (Nat → BitVec 8) × Pipe) :=
  if !node.nonBlock ∧ p.queue.isEmpty then none
  else
    let h := min p.queue.size size
    let (r, data, queue) := p.queue.dequeue (some buff) h
    some (wrapInt r, data.getD buff, { p with queue })

def advance (p : Pipe) (fd : Nat) (d : FileDescriptor) (n : Int) : Pipe :=
  { p with table := p.table.put fd (some { d with offset := wrapInt (d.offset + n) }) }

def sysRead (p : Pipe) (fd offset : Int) (size : Nat) (buff : Nat → BitVec 8) :
    Option (Int × (Nat → BitVec 8) × Pipe) :=
  if fd < 0 ∨ (FdTable.slots : Int) ≤ fd then some (-eBADF, buff, p)
  else
    match p.table.fds fd.toNat with
    | none => some (-eBADF, buff, p)
    | some d =>
      let node := p.node d.node
      if !node.hasPerm .read p.gid p.uid then some (-eACCES, buff, p)
      else if offset = 0 ∧ node.size < d.offset then some (0, buff, p)
      else if node.size ≤ wrapInt (d.offset + offset) then some (0, buff, p)
      else (p.vfsRead node size buff).map fun (how, buff, p) => (how, buff, p.advance fd.toNat d how)

def sysWrite (p : Pipe) (fd : Int) (size : Nat) (buff : Nat → BitVec 8) : Int × Pipe :=
  if fd < 0 ∨ (FdTable.slots : Int) ≤ fd then (-eBADF, p)
  else
    match p.table.fds fd.toNat with
    | none => (-eBADF, p)
    | some d =>
      let node := p.node d.node
      if node.readOnly then (-eROFS, p)
      else if !node.hasPerm .write p.gid p.uid then (-eACCES, p)
      else
        let (wr, p) := p.vfsWrite size buff
        (wr, p.advance fd.toNat d wr)

end Pipe

structure PipeRun where
  pipe : Pipe
  accepted : List (BitVec 8)
  delivered : List (BitVec 8)

namespace PipeRun
open CountedRing

inductive Op
  | write (size : Nat) (buff : Nat → BitVec 8)
  | read (offset : Int) (size : Nat) (buff : Nat → BitVec 8)

def start (p : Pipe) : PipeRun := ⟨p, [], []⟩

/-- Buffers are not empty, and nobody reads from an empty pipe. -/
def exec (s : PipeRun) : Op → Option PipeRun
  | .write size buff =>
    if size = 0 then none
    else
      let (wr, pipe) := s.pipe.sysWrite s.pipe.writeFd size buff
      some { s with pipe, accepted := s.accepted ++ elements buff wr.toNat }
  | .read offset size buff =>
    if size = 0 ∨ s.pipe.queue.isEmpty then none
    else
      (s.pipe.sysRead s.pipe.readFd offset size buff).map fun (how, buff, pipe) =>
        { s with pipe, delivered := s.delivered ++ elements buff how.toNat }

end PipeRun
end HelinKern
