import HelinKern.Descriptors
import HelinKern.Mount

/-! Who writes the type of a node: the `creat` hooks, `sys_socket`, `unix_bind` and `unix_accept`, `sys_fcntl`, the mount hooks
    and `sys_close`.

Nodes, sockets and other private data are known by their addresses, which are handed out once; a node that was freed keeps its
fields. Which node a path leads to, and which file system makes a new one, is given with the call. A call that the permissions
or its arguments refuse does nothing, and is no step. -/

namespace HelinKern
open Function

structure TypedNode where
  flags : BitVec 32
  priv : Option Nat
  deriving DecidableEq, Repr

def TypedNode.isSocket (n : TypedNode) : Bool := n.flags &&& 5 = 5

inductive Creator
  | rootfs | tmpfs | cpio | vfat | none
  deriving DecidableEq, Repr

structure NodeTypes where
  nodes : Nat → TypedNode
  linked : Nat → Bool
  live : Nat → Bool
  tables : FdTables
  fresh : Nat

namespace NodeTypes

def start (nodes : Nat → TypedNode) (fresh : Nat) (procs : Nat → Bool) : NodeTypes where
  nodes
  linked n := n < fresh
  live _ := false
  tables pid := if procs pid then some FdTable.empty else none
  fresh

variable (s : NodeTypes)

def setNode (n : Nat) (x : TypedNode) : NodeTypes := { s with nodes := update s.nodes n x }

def link (x : TypedNode) : NodeTypes :=
  { s.setNode s.fresh x with linked := update s.linked s.fresh true, fresh := s.fresh + 2 }

/-- `rootfs_creat`, `tmpfs_creat`, `cpio_creat` and `fat_creat` with the `type` of the caller. The node that `fat_finddir` makes
    for an entry is a directory if the entry was made with the type 511. -/
def creat (creator : Creator) (type : BitVec 32) : NodeTypes :=
  match creator with
  | .rootfs => s.link ⟨type, none⟩
  | .tmpfs => s.link ⟨type, some (s.fresh + 1)⟩
  | .cpio => if type ≠ 3 then s else s.link ⟨0, some (s.fresh + 1)⟩
  | .vfat => s.link ⟨if type = 511 then 2 else 0, some (s.fresh + 1)⟩
  | .none => s

def openFor (pid n : Nat) (t : FdTable) (flags : Int) : NodeTypes :=
  { s with tables := s.tables.set pid (t.openFor pid (some n) flags).2 }

/-- `sys_open` after the node is found and may be read; `0x200000` asks for a directory. -/
def sysOpen (pid n : Nat) (t : FdTable) (flags : BitVec 32) : NodeTypes :=
  if flags &&& 0x200000 ≠ 0x200000 ∧ (s.nodes n).flags &&& 2 = 2 then s else s.openFor pid n t flags.toInt

def withSocket : NodeTypes :=
  { s.setNode (s.fresh + 1) ⟨5, some s.fresh⟩ with live := update s.live s.fresh true, fresh := s.fresh + 2 }

/-- The end of `sys_socket` and of `unix_accept`: a new socket, and a descriptor for its node. -/
def newSocket (pid : Nat) (t : FdTable) : NodeTypes := s.withSocket.openFor pid (s.fresh + 1) t 2

/-- `unix_bind` of a socket to a path that leads to no node; `found` is where it leads after `vfs_createFile`. -/
def unixBind (socket : Option Nat) (creator : Creator) (found : Option Nat) : NodeTypes :=
  match found with
  | none => s.creat creator 5
  | some n => (s.creat creator 5).setNode n ⟨4, socket⟩

def sysFcntl (n : Nat) (cmd : Int) (arg : BitVec 64) : NodeTypes :=
  if cmd = 4 ∧ ¬(s.nodes n).isSocket then s.setNode n { s.nodes n with flags := arg.setWidth 32 } else s

/-- What the mount hooks do to the mount point; `entries` says that a `cpio` archive has a named entry. -/
def mounted (x : TypedNode) (fs : FileSystem) (entries : Bool) : TypedNode :=
  match fs with
  | .rootfs => { x with flags := 2 }
  | .devfs => { x with priv := none }
  | .cpio => ⟨if entries then 2 else x.flags, some s.fresh⟩
  | .tmpfs | .iso9660 | .ext2 | .vfat => { x with priv := some s.fresh }

/-- `sys_close` after its checks: `socket_destroy` takes what `priv_data` points to, and the slot is cleared. -/
def sysClose (pid fd : Nat) (t : FdTable) (n : Nat) : NodeTypes where
  nodes := s.nodes
  linked := s.linked
  live := match (s.nodes n).priv with
    | none => s.live
    | some a => if (s.nodes n).isSocket then update s.live a false else s.live
  tables := s.tables.set pid (t.put fd none)
  fresh := s.fresh

def onNode (pid fd : Nat) (call : FdTable → Nat → Option NodeTypes) : Option NodeTypes :=
  (s.tables pid).bind fun t => match t.fds fd with
    | none => some s
    | some d => if fd < FdTable.slots then call t d.node else some s

/-- `sys_accept` does not look at the number it is given, and reads the array at any place. -/
inductive Op
  | creat (creator : Creator) (type : BitVec 32)
  | open (pid n : Nat) (flags : BitVec 32)
  | socket (pid : Nat)
  | bind (pid fd : Nat) (creator : Creator) (found : Option Nat)
  | accept (pid : Nat) (fd : Fin FdTable.slots)
  | fcntl (pid fd : Nat) (cmd : Int) (arg : BitVec 64)
  | mount (n : Nat) (isRoot : Bool) (fs : FileSystem) (entries : Bool)
  | close (pid fd : Nat) (accessable : Bool)

/-- Paths lead to linked nodes, and a mount point is the root or has the type of a directory. -/
def exec : Op → Option NodeTypes
  | .creat creator type => some (s.creat creator type)
  | .open pid n flags => if s.linked n then (s.tables pid).map fun t => s.sysOpen pid n t flags else none
  | .socket pid => (s.tables pid).map fun t => s.newSocket pid t
  | .bind pid fd creator found => s.onNode pid fd fun _ n =>
    if ∀ m ∈ found, (s.creat creator 5).linked m then
      some (if (s.nodes n).isSocket then s.unixBind (s.nodes n).priv creator found else s)
    else none
  | .accept pid fd => s.onNode pid fd fun t n => some (if (s.nodes n).isSocket then s.newSocket pid t else s)
  | .fcntl pid fd cmd arg => s.onNode pid fd fun _ n => some (s.sysFcntl n cmd arg)
  | .mount n isRoot fs entries =>
    if s.linked n ∧ (isRoot ∨ (s.nodes n).flags &&& 7 = 2) then
      some { s.setNode n (s.mounted (s.nodes n) fs entries) with fresh := s.fresh + 1 }
    else none
  | .close pid fd accessable => s.onNode pid fd fun t n => some (if accessable then s.sysClose pid fd t n else s)

end NodeTypes
end HelinKern
