import HelinKern.Descriptors
import HelinKern.Lib.Slots

/-! The objects behind the descriptors of pipes, message queues and sockets, and who frees them: `src/ipc/pipe.c`,
    `src/ipc/msg.c`, `sys_socket`, `sys_close`, `sys_dup` and `sys_fork` of `src/syscall.c`, and the loop of
    `thread_killThread` that closes descriptors. An address stands for one allocation: it is not handed out twice, and
    memory that was freed keeps its contents. -/

namespace HelinKern
open Slots Function

inductive IpcObj
  | pipe (creator : Nat) (readFd writeFd : Int)
  | msg (key connections : Int)
  | socket (owner : Nat)
  deriving DecidableEq, Repr

/-- The fields `inode` and `priv_data` of a node. Its file system and its flags follow from the object it leads to. -/
structure IpcNode where
  inode : Nat
  priv : Nat
  deriving DecidableEq, Repr

inductive IpcBlock
  | node (n : Nat)
  | obj (o : Nat)
  deriving DecidableEq, Repr

/-- The processes, the nodes, the objects and `keysQueue`. `strays` are the addresses that `sys_dup` took from memory
    that nobody had written, and `freed` are the calls of `kfree`, the last one first. -/
structure Ipc where
  tables : FdTables
  died : Nat → Bool
  node : Nat → IpcNode
  nodeStatus : Nat → MemStatus
  obj : Nat → IpcObj
  objStatus : Nat → MemStatus
  keys : List Nat
  strays : List Nat
  freed : List IpcBlock

namespace Ipc

def start (pids : List Nat) (node : Nat → IpcNode) (obj : Nat → IpcObj) : Ipc where
  tables p := if p ∈ pids then some FdTable.empty else none
  died _ := false
  node := node
  nodeStatus _ := .unused
  obj := obj
  objStatus _ := .unused
  keys := []
  strays := []
  freed := []

def table (k : Ipc) (pid : Nat) : FdTable := (k.tables pid).getD FdTable.empty

def setTable (k : Ipc) (pid : Nat) (t : FdTable) : Ipc := { k with tables := k.tables.set pid t }

def slot (k : Ipc) (i : Nat × Nat) : Option Nat :=
  if i.2 < FdTable.slots then ((k.table i.1).fds i.2).map FileDescriptor.node else none

/-! ### Memory -/

def newNode (k : Ipc) (a : Nat) (x : IpcNode) : Ipc :=
  { k with node := update k.node a x, nodeStatus := update k.nodeStatus a .alive }

def newObj (k : Ipc) (o : Nat) (x : IpcObj) : Ipc :=
  { k with obj := update k.obj o x, objStatus := update k.objStatus o .alive }

def setObj (k : Ipc) (o : Nat) (x : IpcObj) : Ipc := { k with obj := update k.obj o x }

def freeNode (k : Ipc) (n : Nat) : Ipc :=
  { k with nodeStatus := update k.nodeStatus n .freed, freed := .node n :: k.freed }

def freeObj (k : Ipc) (o : Nat) : Ipc :=
  { k with objStatus := update k.objStatus o .freed, freed := .obj o :: k.freed }

/-! ### Closing a node -/

/-- The data of a pipe after `pipe_vfs_close` of a node; that with `inode` 1 is the writer. -/
def closedEnd (inode creator : Nat) (readFd writeFd : Int) : IpcObj :=
  if inode = 1 then .pipe creator readFd 0 else .pipe creator 0 writeFd

def pipeOver (k : Ipc) : IpcObj → Bool
  | .pipe creator readFd writeFd => writeFd = 0 ∧ readFd = 0 ∧ k.died creator
  | _ => false

def pipeVfsClose (k : Ipc) (n creator : Nat) (readFd writeFd : Int) : Ipc :=
  let x := closedEnd (k.node n).inode creator readFd writeFd
  let k := k.setObj (k.node n).priv x
  if k.pipeOver x then (k.freeObj (k.node n).priv).freeNode n else k

def msgobjClose (k : Ipc) (n : Nat) (key connections : Int) : Ipc :=
  let o := (k.node n).priv
  let k := k.setObj o (.msg key (connections - 1))
  let k := if connections - 1 ≤ 0 then { k.freeObj o with keys := k.keys.erase o } else k
  k.freeNode n

def vfsClose (k : Ipc) (n : Nat) : Ipc :=
  match k.obj (k.node n).priv with
  | .pipe creator readFd writeFd => k.pipeVfsClose n creator readFd writeFd
  | .msg key connections => k.msgobjClose n key connections
  | .socket _ => k

/-- `vfs_close` and, if the node is that of a socket with an owner that meets `ends`, `socket_destroy` and `kfree` of the
    node. -/
def closeNode (k : Ipc) (n : Nat) (ends : Nat → Bool) : Ipc :=
  match k.obj (k.node n).priv with
  | .socket owner => if ends owner then (k.freeObj (k.node n).priv).freeNode n else k
  | _ => k.vfsClose n

def openFor (k : Ipc) (pid n : Nat) : Int × Ipc :=
  let (r, t) := (k.table pid).openFor pid (some n) 2
  let k' := k.setTable pid t
  (r, if FdTable.openLimit ≤ (k.table pid).nextFd then k'.vfsClose n else k')

def pipeCreate (k : Ipc) (pid a b o : Nat) : Ipc :=
  let k := ((k.newNode a ⟨0, o⟩).newNode b ⟨1, o⟩).newObj o (.pipe pid 0 0)
  let (fd0, k) := k.openFor pid a
  let (fd1, k) := k.openFor pid b
  k.setObj o (.pipe pid fd0 fd1)

def hasKey (k : Ipc) (key : Int) (o : Nat) : Bool :=
  match k.obj o with
  | .msg key' _ => key' = key
  | _ => false

/-- `msg_createIPC` up to the node: the object of the key, with one more connection. A new one is at `o`. -/
def msgConnect (k : Ipc) (key : Int) (o : Nat) : Nat × Ipc :=
  match k.keys.find? (k.hasKey key) with
  | some o =>
    match k.obj o with
    | .msg key' connections => (o, k.setObj o (.msg key' (connections + 1)))
    | _ => (o, k)
  | none => (o, { k.newObj o (.msg key 1) with keys := k.keys ++ [o] })

def msgCreateIPC (k : Ipc) (pid : Nat) (key : Int) (a o : Nat) : Ipc :=
  if key < 0 then k
  else
    let (o, k) := k.msgConnect key o
    ((k.newNode a ⟨0, o⟩).openFor pid a).2

def sysSocket (k : Ipc) (pid a o : Nat) : Ipc := (((k.newObj o (.socket pid)).newNode a ⟨0, o⟩).openFor pid a).2

def sysDup (k : Ipc) (pid oldfd newfd : Nat) (dupfd : Int) (junk : FileDescriptor) : Ipc :=
  let t := k.table pid
  { k.setTable pid (t.dup oldfd newfd dupfd junk).2 with
    strays := if t.fds oldfd = none ∧ dupfd = 1 then junk.node :: k.strays else k.strays }

def sysFork (k : Ipc) (parent child : Nat) : Ipc := k.setTable child ((k.table parent).fork child)

/-- Closing a descriptor: `sys_close` ends every socket, and the loop of `thread_killThread` those of the process. -/
def closeFd (k : Ipc) (pid fd : Nat) (ends : Nat → Bool) : Ipc :=
  match k.slot (pid, fd) with
  | none => k
  | some n => (k.closeNode n ends).setTable pid ((k.table pid).put fd none)

/-! ### Calls as steps -/

/-- `die` marks a process as dead, and `reap` is one turn of the loop of `thread_killThread` over its slots. -/
inductive Op
  | pipe (pid a b o : Nat)
  | msg (pid : Nat) (key : Int) (a o : Nat)
  | socket (pid a o : Nat)
  | dup (pid : Nat) (oldfd newfd : Fin FdTable.slots) (dupfd : Int) (junk : FileDescriptor)
  | fork (parent child : Nat)
  | close (pid : Nat) (fd : Fin FdTable.slots) (accessable : Bool)
  | die (pid : Nat)
  | reap (pid : Nat) (fd : Fin FdTable.slots)

def Runs (k : Ipc) (pid : Nat) : Prop := k.tables pid ≠ none ∧ k.died pid = false

instance (k : Ipc) (pid : Nat) : Decidable (k.Runs pid) := inferInstanceAs (Decidable (_ ∧ _))

def FreshNode (k : Ipc) (a : Nat) : Prop := k.nodeStatus a = .unused ∧ a ∉ k.strays

instance (k : Ipc) (a : Nat) : Decidable (k.FreshNode a) := inferInstanceAs (Decidable (_ ∧ _))

def IsNode (k : Ipc) (pid fd : Nat) : Prop := ∀ n ∈ k.slot (pid, fd), k.nodeStatus n ≠ .unused

instance (k : Ipc) (pid fd : Nat) : Decidable (k.IsNode pid fd) :=
  inferInstanceAs (Decidable (∀ n ∈ k.slot (pid, fd), k.nodeStatus n ≠ .unused))

/-- Which calls are made, and by whom; what a call does to memory that never was a node is not defined. -/
def Allowed (k : Ipc) : Op → Prop
  | .pipe pid a b o => k.Runs pid ∧ k.FreshNode a ∧ k.FreshNode b ∧ a ≠ b ∧ k.objStatus o = .unused
  | .msg pid _ a o | .socket pid a o => k.Runs pid ∧ k.FreshNode a ∧ k.objStatus o = .unused
  | .dup pid .. | .die pid => k.Runs pid
  | .fork parent child => k.Runs parent ∧ k.tables child = none
  | .close pid fd accessable => k.Runs pid ∧ (accessable = true → k.IsNode pid fd)
  | .reap pid fd => k.died pid = true ∧ k.IsNode pid fd

instance (k : Ipc) : (op : Op) → Decidable (k.Allowed op)
  | .pipe .. | .msg .. | .socket .. | .fork .. | .close .. | .reap .. => inferInstanceAs (Decidable (_ ∧ _))
  | .dup pid .. | .die pid => inferInstanceAs (Decidable (k.Runs pid))

def apply (k : Ipc) : Op → Ipc
  | .pipe pid a b o => k.pipeCreate pid a b o
  | .msg pid key a o => k.msgCreateIPC pid key a o
  | .socket pid a o => k.sysSocket pid a o
  | .dup pid oldfd newfd dupfd junk => k.sysDup pid oldfd newfd dupfd junk
  | .fork parent child => k.sysFork parent child
  | .close pid fd accessable => if accessable then k.closeFd pid fd fun _ => true else k
  | .die pid => { k with died := update k.died pid true }
  | .reap pid fd => k.closeFd pid fd fun owner => owner = pid

def exec (k : Ipc) (op : Op) : Option Ipc := if k.Allowed op then some (k.apply op) else none

end Ipc
end HelinKern
